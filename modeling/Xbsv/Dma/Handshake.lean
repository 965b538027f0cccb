import Xbsv.Dma.SendFd

set_option relaxedAutoImplicit false
set_option autoImplicit false

/-!
# The registration handshake

`DmaManager_reference` of `dmaManager.c` sends the scatter list of a buffer to the device and waits on `confSem` for
the `configResp` with which the device answers a `region` call. There are two variants: with `KERNEL_REFERENCE` the
driver sends the list in an `ioctl`, and otherwise the library does. `sem_wait` is not interrupted.

## Main definitions

* `Xbsv.DmaManager.reference` — what a call sends, whether it waits, and what it returns.
* `Xbsv.DmaManager.manager` — the calls, the answers of the device and the semaphore, in any order.
* `Xbsv.DmaManager.Handled` — the calls that are handled as they should be.
* `Xbsv.DmaManager.Lawful` — the handshake.

## Main results

* `Xbsv.DmaManager.responses_sendFdToPortal` — the device answers just the calls that send a region.
* `Xbsv.DmaManager.Lawful.step` — what one step preserves, and when it does not.
* `Xbsv.DmaManager.handshake` — the handshake in all runs.
-/

namespace Xbsv.DmaManager

open Rules
open SGList (SGListId SgEntry DmaCall sglistLoop)

/-! ## The source -/

/-- The two variants of `DmaManager_reference`. -/
inductive Variant
  | kernelReference
  | direct
  deriving DecidableEq

/-- What is found out about a buffer: its scatter list, or a failure after some of its entries. -/
inductive Buffer
  | ok (es : List SgEntry)
  | failed (es : List SgEntry)
  deriving DecidableEq

def Buffer.isOk : Buffer → Bool
  | .ok _ => true
  | .failed _ => false

/-- `send_fd_to_portal`: the calls to the device, and what it returns. Where the scatter list cannot be read it returns
what `ioctl` has returned, without the end of the list and without a region. -/
def sendFdToPortal (id : BitVec 32) : Buffer → List DmaCall × BitVec 32
  | .ok es => (SGList.sendFdToPortal id es, id)
  | .failed es => ((sglistLoop id 0 (fun _ => 0) es).1, -1)

/-- `ioctl` with `PORTAL_SEND_FD` or `PCIE_SEND_FD`. The driver calls `send_fd_to_portal`, which does not fail there; a
negative number that it returns is taken for an error. -/
def sendFdIoctl (id : BitVec 32) : Buffer → List DmaCall × BitVec 32
  | .ok es =>
    let (calls, err) := sendFdToPortal id (.ok es)
    (calls, if err.slt 0 then -1 else 0)
  | .failed _ => ([], -1)

/-- A call of `DmaManager_reference`: what it sends, whether it waits on `confSem`, and what it returns. -/
structure Call where
  calls : List DmaCall
  waits : Bool
  rc : BitVec 32

/-- `DmaManager_reference` with the handle `id`. -/
def reference (v : Variant) (id : BitVec 32) (b : Buffer) : Call :=
  match v with
  | .kernelReference =>
    let (calls, rc) := sendFdIoctl id b
    { calls, waits := rc = 0, rc := id }
  | .direct =>
    let (calls, rc) := sendFdToPortal id b
    { calls, waits := rc.sle 0, rc }

/-- The answers of the device: method `region` of `mkSGListMMU` queues one, and rule `sendConfigResp` sends it. -/
def responses (calls : List DmaCall) : List SGListId :=
  calls.filterMap fun c =>
    match c.toConfig with
    | .sglist .. => none
    | .region ptr .. => some (ptr.setWidth 5)

/-! ## The runs -/

/-- `priv->handle`, `confSem`, the answers that are under way, and the call that waits with what it will return. -/
structure State where
  handle : BitVec 32
  confSem : ℕ
  inFlight : List SGListId
  waiting : Option (BitVec 32)

/-- After `DmaManager_init`. -/
def State.init : State := ⟨0, 0, [], none⟩

/-- A call begins; `configResp` arrives and `confResp` posts; the call that waits goes on. -/
inductive Action
  | reference (b : Buffer)
  | configResp
  | wake

/-- What happens: a call with its handle, and whether it sends a region; an answer; the end of a wait; a return. -/
inductive Event
  | called (id : BitVec 32) (sent : Bool)
  | configResp (ptr : SGListId)
  | woke
  | returned (rc : BitVec 32)
  deriving DecidableEq

/-- The calls of one thread, the answers and the semaphore. -/
def manager (v : Variant) : RuleSystem State Action Event where
  step s
    | .reference b =>
      if s.waiting.isSome then none
      else
        let c := reference v s.handle b
        let s' := { s with handle := s.handle + 1, inFlight := s.inFlight ++ responses c.calls }
        let called := Event.called s.handle (responses c.calls ≠ [])
        if c.waits then some ({ s' with waiting := some c.rc }, [called]) else some (s', [called, .returned c.rc])
    | .configResp =>
      match s.inFlight with
      | [] => none
      | ptr :: inFlight => some ({ s with confSem := s.confSem + 1, inFlight }, [.configResp ptr])
    | .wake =>
      match s.waiting, s.confSem with
      | some rc, n + 1 => some ({ s with waiting := none, confSem := n }, [.woke, .returned rc])
      | _, _ => none

/-! ## The handshake -/

/-- The events of calls that have returned as they should: a call that sends a region waits once, until its answer has
come, and returns its handle; another one does not wait and returns a negative number. -/
inductive Complete : List Event → Prop
  | nil : Complete []
  | sent {tr : List Event} {id : BitVec 32} : Complete tr → 0 ≤ id.toInt →
    Complete (tr ++ [.called id true, .configResp (id.setWidth 5), .woke, .returned id])
  | failed {tr : List Event} {id rc : BitVec 32} : Complete tr → rc.toInt < 0 →
    Complete (tr ++ [.called id false, .returned rc])

/-- A call that waits, after the events `tr` of the calls before: its answer is under way, or it has come and is the
only post. -/
inductive Waits (tr : List Event) (id : BitVec 32) : List Event → ℕ → List SGListId → Prop
  | inFlight : Waits tr id (tr ++ [.called id true]) 0 [id.setWidth 5]
  | posted : Waits tr id (tr ++ [.called id true, .configResp (id.setWidth 5)]) 1 []

/-- **The handshake**. Between two calls there is neither a post nor an answer left; a call that waits does so for its
own answer. -/
def Lawful (tr : List Event) (s : State) : Prop :=
  match s.waiting with
  | none => Complete tr ∧ s.confSem = 0 ∧ s.inFlight = []
  | some rc => ∃ tr₀, Complete tr₀ ∧ 0 ≤ rc.toInt ∧ Waits tr₀ rc tr s.confSem s.inFlight

/-- The calls that are handled as they should be. With `KERNEL_REFERENCE` these are the ones that are sent, as long as
the handles are not negative; without it, the first one if it is sent. -/
def Handled (v : Variant) (id : BitVec 32) (b : Buffer) : Prop :=
  match v with
  | .kernelReference => b.isOk = true ↔ 0 ≤ id.toInt
  | .direct => b.isOk = true ∧ id = 0

instance : ∀ (v : Variant) (id : BitVec 32) (b : Buffer), Decidable (Handled v id b)
  | .kernelReference, id, b => inferInstanceAs (Decidable (b.isOk = true ↔ 0 ≤ id.toInt))
  | .direct, id, b => inferInstanceAs (Decidable (b.isOk = true ∧ id = 0))

/-- The steps whose calls are handled as they should be. -/
def Good (v : Variant) (s : State) : Action → Prop
  | .reference b => Handled v s.handle b
  | _ => True

instance (v : Variant) (s : State) : ∀ a, Decidable (Good v s a)
  | .reference b => inferInstanceAs (Decidable (Handled v s.handle b))
  | .configResp => inferInstanceAs (Decidable True)
  | .wake => inferInstanceAs (Decidable True)

/-! ## What is sent -/

lemma responses_append (xs ys : List DmaCall) : responses (xs ++ ys) = responses xs ++ responses ys :=
  List.filterMap_append ..

/-- The entries of the list are not answered. -/
lemma responses_sglistLoop (id : BitVec 32) (i : ℕ) (regions : Fin 3 → BitVec 32) (es : List SgEntry) :
    responses (sglistLoop id i regions es).1 = [] := by
  induction es generalizing i regions with
  | nil => rfl
  | cons e es ih =>
    rw [sglistLoop]
    split
    · exact ih (i + 1) _
    · exact ih (i + 1) regions

/-- **The device answers just the calls that send a region.** -/
theorem responses_sendFdToPortal (id : BitVec 32) (b : Buffer) :
    responses (sendFdToPortal id b).1 = if b.isOk then [id.setWidth 5] else [] := by
  cases b with
  | ok es =>
    show responses (SGList.sendFdToPortal id es) = [id.setWidth 5]
    rw [SGList.sendFdToPortal, responses_append, responses_sglistLoop]
    rfl
  | failed es => exact responses_sglistLoop id 0 _ es

/-- What a call does with `KERNEL_REFERENCE`. -/
lemma reference_kernelReference (id : BitVec 32) (b : Buffer) :
    responses (reference .kernelReference id b).calls = (if b.isOk then [id.setWidth 5] else []) ∧
      ((reference .kernelReference id b).waits = true ↔ b.isOk = true ∧ 0 ≤ id.toInt) ∧
      (reference .kernelReference id b).rc = id := by
  cases b with
  | ok es =>
    refine ⟨responses_sendFdToPortal id (.ok es), ?_, rfl⟩
    have hwaits : (reference .kernelReference id (.ok es)).waits = decide ((if id.slt 0 then -1 else 0 : BitVec 32) = 0) :=
      rfl
    have hslt : id.slt 0 = true ↔ id.toInt < 0 := by
      rw [BitVec.slt, decide_eq_true_eq]
      rfl
    rw [hwaits, decide_eq_true_eq]
    split
    case isTrue h => exact ⟨fun h' => absurd h' (by decide), fun h' => absurd (hslt.mp h) (Int.not_lt.mpr h'.2)⟩
    case isFalse h => exact ⟨fun _ => ⟨rfl, Int.not_lt.mp (mt hslt.mpr h)⟩, fun _ => rfl⟩
  | failed es => exact ⟨rfl, ⟨fun h => absurd h Bool.false_ne_true, fun h => absurd h.1 Bool.false_ne_true⟩, rfl⟩

/-- What a call does without it. -/
lemma reference_direct (id : BitVec 32) (b : Buffer) :
    responses (reference .direct id b).calls = (if b.isOk then [id.setWidth 5] else []) ∧
      ((reference .direct id b).waits = true ↔ (b.isOk = true → id.toInt ≤ 0)) ∧
      (reference .direct id b).rc = if b.isOk then id else -1 := by
  refine ⟨responses_sendFdToPortal id b, ?_, ?_⟩
  · cases b with
    | ok es =>
      have hwaits : (reference .direct id (.ok es)).waits = decide (id.toInt ≤ 0) := rfl
      rw [hwaits, decide_eq_true_eq]
      exact ⟨fun h _ => h, fun h => h rfl⟩
    | failed es => exact ⟨fun _ h => absurd h Bool.false_ne_true, fun _ => rfl⟩
  · cases b with
    | ok es => rfl
    | failed es => rfl

/-- A call is as it should be. -/
def Call.Law (id : BitVec 32) (c : Call) : Prop :=
  (c.waits = true ↔ responses c.calls ≠ []) ∧
    if responses c.calls ≠ [] then c.rc = id ∧ 0 ≤ id.toInt else c.rc.toInt < 0

/-- **Which calls are as they should be.** -/
theorem law_iff (v : Variant) (id : BitVec 32) (b : Buffer) : (reference v id b).Law id ↔ Handled v id b := by
  cases v with
  | kernelReference =>
    obtain ⟨hcalls, hwaits, hrc⟩ := reference_kernelReference id b
    rw [Call.Law, Handled, hcalls, hwaits, hrc]
    cases b.isOk with
    | true => simp
    | false => simp
  | direct =>
    obtain ⟨hcalls, hwaits, hrc⟩ := reference_direct id b
    rw [Call.Law, Handled, hcalls, hwaits, hrc]
    cases b.isOk with
    | true =>
      have hzero : id = 0 ↔ id.toInt ≤ 0 ∧ 0 ≤ id.toInt := by
        rw [← BitVec.toInt_inj, show (0 : BitVec 32).toInt = 0 from rfl]
        omega
      rw [hzero]
      simp
    | false => simp

/-! ## The steps -/

variable {v : Variant} {tr : List Event} {s s' : State} {es : List Event} {a : Action}

/-- The last call has failed. -/
lemma Complete.failed_inv {id rc : BitVec 32} (h : Complete (tr ++ [Event.called id false, .returned rc])) :
    rc.toInt < 0 := by
  generalize htr : tr ++ [Event.called id false, .returned rc] = tr' at h
  cases h with
  | nil => simp at htr
  | @sent tr₀ id₀ _ _ =>
    have hlast := congrArg List.reverse htr
    simp at hlast
  | @failed tr₀ id₀ rc₀ _ hrc =>
    have hlast := congrArg List.reverse htr
    simp only [List.reverse_append, List.reverse_cons, List.reverse_nil, List.nil_append, List.cons_append,
      List.cons.injEq, Event.returned.injEq] at hlast
    rwa [hlast.1]

/-- A call that waits for the answer to another handle. -/
lemma Waits.called_inv {tr₀ : List Event} {id rc : BitVec 32} {inFlight : List SGListId}
    (h : Waits tr₀ rc (tr ++ [Event.called id true]) 0 inFlight) : rc = id := by
  generalize htr : tr ++ [Event.called id true] = tr' at h
  cases h with
  | inFlight =>
    have hlast := congrArg List.reverse htr
    simp only [List.reverse_append, List.reverse_cons, List.reverse_nil, List.nil_append, List.cons_append,
      List.cons.injEq, Event.called.injEq] at hlast
    exact hlast.1.1.symm

/-- A call that waits without a post has its answer under way. -/
lemma Waits.ne_nil {tr₀ : List Event} {rc : BitVec 32} {inFlight : List SGListId} (h : Waits tr₀ rc tr 0 inFlight) :
    inFlight ≠ [] := by
  cases h
  exact List.cons_ne_nil _ _

/-- A call keeps the handshake just when it is as it should be. -/
lemma lawful_reference_iff {b : Buffer} (hs : Lawful tr s)
    (hstep : (manager v).step s (.reference b) = some (s', es)) :
    Lawful (tr ++ es) s' ↔ (reference v s.handle b).Law s.handle := by
  have hresponses : responses (reference v s.handle b).calls = if b.isOk then [s.handle.setWidth 5] else [] := by
    cases v with
    | kernelReference => exact (reference_kernelReference s.handle b).1
    | direct => exact (reference_direct s.handle b).1
  cases hwaiting : s.waiting with
  | some rc => simp [manager, hwaiting] at hstep
  | none =>
    simp only [Lawful, hwaiting] at hs
    obtain ⟨hcomplete, hsem, hinFlight⟩ := hs
    simp only [manager, hwaiting, Option.isSome_none, Bool.false_eq_true, if_false, hinFlight, List.nil_append] at hstep
    rw [Call.Law]
    split at hstep
    case isTrue hwaits =>
      cases hstep
      simp only [Lawful, hresponses, hwaits, hsem, true_iff]
      -- A call that waits for an answer that does not come is not lawful.
      cases b.isOk with
      | true =>
        simp only [if_true, ne_eq, List.cons_ne_nil, not_false_eq_true, decide_true, true_and]
        constructor
        · rintro ⟨tr₀, -, hpos, hwait⟩
          have hrc := hwait.called_inv
          exact ⟨hrc, hrc ▸ hpos⟩
        · rintro ⟨hrc, hpos⟩
          rw [hrc]
          exact ⟨tr, hcomplete, hpos, .inFlight⟩
      | false =>
        simp only [Bool.false_eq_true, if_false, ne_eq, not_true_eq_false, decide_false, false_and, iff_false]
        rintro ⟨tr₀, -, -, hwait⟩
        exact hwait.ne_nil rfl
    case isFalse hwaits =>
      cases hstep
      simp only [Lawful, hresponses, hwaits, hsem]
      -- A call that does not wait for its answer leaves it behind.
      cases b.isOk with
      | true => simp
      | false =>
        simp only [Bool.false_eq_true, if_false, ne_eq, not_true_eq_false, decide_false, and_true, true_and]
        exact ⟨Complete.failed_inv, hcomplete.failed⟩

/-- **One step** keeps the handshake just when its call, if it is one, is handled as it should be. -/
theorem Lawful.step (hs : Lawful tr s) (hstep : (manager v).step s a = some (s', es)) :
    Lawful (tr ++ es) s' ↔ Good v s a := by
  cases a with
  | reference b => exact (lawful_reference_iff hs hstep).trans (law_iff v s.handle b)
  | configResp =>
    refine ⟨fun _ => trivial, fun _ => ?_⟩
    obtain ⟨handle, confSem, inFlight, waiting⟩ := s
    cases waiting with
    | none =>
      obtain ⟨-, -, rfl⟩ := hs
      cases hstep
    | some rc =>
      obtain ⟨tr₀, hcomplete, hpos, hwait⟩ := hs
      cases hwait with
      | inFlight =>
        cases hstep
        refine ⟨tr₀, hcomplete, hpos, ?_⟩
        rw [List.append_assoc]
        exact .posted
      | posted => cases hstep
  | wake =>
    refine ⟨fun _ => trivial, fun _ => ?_⟩
    obtain ⟨handle, confSem, inFlight, waiting⟩ := s
    cases waiting with
    | none => cases hstep
    | some rc =>
      obtain ⟨tr₀, hcomplete, hpos, hwait⟩ := hs
      cases hwait with
      | inFlight => cases hstep
      | posted =>
        cases hstep
        refine ⟨?_, rfl, rfl⟩
        rw [List.append_assoc]
        exact hcomplete.sent hpos

/-- **The handshake in all runs**: it holds as long as all calls are handled as they should be, and no longer. -/
theorem handshake (v : Variant) :
    (∀ tr s, ((manager v).guard (Good v)).Reaches .init tr s → Lawful tr s) ∧
      ∀ tr s a s' es, ((manager v).guard (Good v)).Reaches .init tr s → (manager v).step s a = some (s', es) →
        ¬Good v s a → ¬Lawful (tr ++ es) s' := by
  have hall : ∀ tr s, ((manager v).guard (Good v)).Reaches .init tr s → Lawful tr s := by
    intro tr s h
    refine h.invariant (I := Lawful) (show Lawful [] .init from ⟨.nil, rfl, rfl⟩) ?_
    intro tr s a s' es hs hstep
    obtain ⟨hgood, hstep⟩ := RuleSystem.guard_step.mp hstep
    exact (hs.step hstep).mpr hgood
  exact ⟨hall, fun tr s a s' es h hstep hbad hlaw => hbad (((hall tr s h).step hstep).mp hlaw)⟩

/-- The first call fails: with `KERNEL_REFERENCE` it returns the handle 0, and otherwise it waits for ever. -/
theorem not_handshake_first_fails :
    (∃ tr s, (manager .kernelReference).Reaches .init tr s ∧ ¬Lawful tr s) ∧
      ∃ tr s, (manager .direct).Reaches .init tr s ∧ ¬Lawful tr s := by
  constructor
  · refine ⟨_, _, RuleSystem.reaches_run (M := manager _) State.init [.reference (.failed [])], ?_⟩
    rintro ⟨hcomplete, -⟩
    have hfailed : Complete ([] ++ [Event.called 0 false, .returned 0]) := hcomplete
    exact absurd hfailed.failed_inv (by decide)
  · refine ⟨_, _, RuleSystem.reaches_run (M := manager _) State.init [.reference (.failed [])], ?_⟩
    rintro ⟨tr₀, -, hpos, -⟩
    exact absurd hpos (by decide)

end Xbsv.DmaManager
