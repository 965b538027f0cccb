import Xbsv.Engine.BramFifos

set_option relaxedAutoImplicit false
set_option autoImplicit false

/-!
# The queues of a block RAM

What a user of `mkUGBramFifos` may rely on. The queues that the user has in mind are lists, one for each index, and a
call concerns the list of its own index. The module keeps no count of their elements: with its head and tail at one
address a window is empty or full. So the user is the one who sees to it that no queue is overfilled, or read, updated
or dequeued when it is empty.

## Main definitions

* `Xbsv.ugBramFifos` — the calls of the methods, in any order.
* `Xbsv.UGBramFifos.contents`, `Xbsv.UGBramFifos.asked` — the lists, and the heads that were asked for.
* `Xbsv.UGBramFifos.Within` — the calls that a user may make.
* `Xbsv.UGBramFifos.Serves` — the module as so many queues.

## Main results

* `Xbsv.UGBramFifos.Serves.step` — a call that the user may make does to the module what it does to the lists.
* `Xbsv.UGBramFifos.serves_of_within` — the module is a bank of queues.
-/

namespace Xbsv

open Rules

namespace UGBramFifos

/-- The calls of the methods. -/
inductive Action (numFifos : ℕ) (α : Type)
  | enq (idx : Fin numFifos) (v : α)
  | firstReq (idx : Fin numFifos)
  | firstResp
  | deq (idx : Fin numFifos)
  | updHead (idx : Fin numFifos) (v : α)

/-- The calls that were made, a `firstResp` with its result. -/
inductive Event (numFifos : ℕ) (α : Type)
  | enq (idx : Fin numFifos) (v : α)
  | firstReq (idx : Fin numFifos)
  | firstResp (v : α)
  | deq (idx : Fin numFifos)
  | updHead (idx : Fin numFifos) (v : α)

variable {numFifos fifoDepth : ℕ} {α : Type}

/-- The call has the index `i`. -/
def Event.concerns (i : Fin numFifos) : Event numFifos α → Bool
  | .enq idx _ | .firstReq idx | .deq idx | .updHead idx _ => idx = i
  | .firstResp _ => false

def step (s : UGBramFifos numFifos fifoDepth α) :
    Action numFifos α → Option (UGBramFifos numFifos fifoDepth α × List (Event numFifos α))
  | .enq idx v => some (s.enq idx v, [.enq idx v])
  | .firstReq idx => (s.firstReq idx).map fun s' => (s', [.firstReq idx])
  | .firstResp => s.firstResp.map fun r => (r.2, [.firstResp r.1])
  | .deq idx => some (s.deq idx, [.deq idx])
  | .updHead idx v => (s.updHead idx v).map fun s' => (s', [.updHead idx v])

end UGBramFifos

/-- The module, with calls at any times. -/
def ugBramFifos (numFifos fifoDepth : ℕ) (α : Type) :
    RuleSystem (UGBramFifos numFifos fifoDepth α) (UGBramFifos.Action numFifos α)
      (UGBramFifos.Event numFifos α) where
  step s a := s.step a

namespace UGBramFifos

variable {numFifos fifoDepth : ℕ} {α : Type}

/-! ## The lists -/

/-- What a call makes of the queues. -/
def call (q : Fin numFifos → List α) : Event numFifos α → Fin numFifos → List α
  | .enq idx v => Function.update q idx (q idx ++ [v])
  | .deq idx => Function.update q idx (q idx).tail
  | .updHead idx v => Function.update q idx (v :: (q idx).tail)
  | .firstReq _ | .firstResp _ => q

/-- The elements of the queues after some calls. -/
def contents (tr : List (Event numFifos α)) : Fin numFifos → List α := tr.foldl call fun _ => []

/-- The element that a call asks for. -/
def heads (q : Fin numFifos → List α) : Event numFifos α → List α
  | .firstReq idx => (q idx).head?.toList
  | _ => []

/-- The elements that calls ask for, when the queues are `q` at first. -/
def askedFrom (q : Fin numFifos → List α) : List (Event numFifos α) → List α
  | [] => []
  | e :: tr => heads q e ++ askedFrom (call q e) tr

/-- The elements that were asked for: for each request the head of its queue at that time. -/
def asked (tr : List (Event numFifos α)) : List α := askedFrom (fun _ => []) tr

/-- The elements that were answered. -/
def answered (tr : List (Event numFifos α)) : List α :=
  tr.filterMap fun
    | .firstResp v => some v
    | _ => none

/-- A call that a user may make when the queues are `q`. -/
def Admits (fifoDepth : ℕ) (q : Fin numFifos → List α) : Event numFifos α → Prop
  | .enq idx _ => (q idx).length < fifoDepth
  | .firstReq idx | .deq idx | .updHead idx _ => q idx ≠ []
  | .firstResp _ => True

instance (fifoDepth : ℕ) (q : Fin numFifos → List α) (e : Event numFifos α) : Decidable (Admits fifoDepth q e) :=
  match e with
  | .enq idx _ => inferInstanceAs (Decidable ((q idx).length < fifoDepth))
  | .firstReq idx | .deq idx | .updHead idx _ => inferInstanceAs (Decidable (q idx ≠ []))
  | .firstResp _ => isTrue trivial

/-- Calls that a user may make, when the queues are `q` at first. -/
def WithinFrom (fifoDepth : ℕ) (q : Fin numFifos → List α) : List (Event numFifos α) → Prop
  | [] => True
  | e :: tr => Admits fifoDepth q e ∧ WithinFrom fifoDepth (call q e) tr

instance decidableWithinFrom (fifoDepth : ℕ) (q : Fin numFifos → List α) (tr : List (Event numFifos α)) :
    Decidable (WithinFrom fifoDepth q tr) :=
  match tr with
  | [] => isTrue trivial
  | e :: tr =>
    have := decidableWithinFrom fifoDepth (call q e) tr
    inferInstanceAs (Decidable (Admits fifoDepth q e ∧ WithinFrom fifoDepth (call q e) tr))

/-- **Calls that a user may make**: no queue is overfilled, and none is read, updated or dequeued when it is empty. -/
def Within (fifoDepth : ℕ) (tr : List (Event numFifos α)) : Prop := WithinFrom fifoDepth (fun _ => []) tr

instance (fifoDepth : ℕ) (tr : List (Event numFifos α)) : Decidable (Within fifoDepth tr) :=
  inferInstanceAs (Decidable (WithinFrom fifoDepth (fun _ => []) tr))

/-- The addresses of the window of queue `i`. -/
def InWindow (i : Fin numFifos) (a : BitVec (buffAddrSz numFifos fifoDepth)) : Prop :=
  i * fifoDepth ≤ a.toNat ∧ a.toNat < (i + 1) * fifoDepth

/-- **The module as so many queues**: it holds the lists, it answers with the elements that were asked for, and heads and
tails stay in their windows. -/
structure Serves (tr : List (Event numFifos α)) (s : UGBramFifos numFifos fifoDepth α) : Prop where
  holds : s.Holds (contents tr)
  answers : answered tr ++ s.resp.items = asked tr
  head_mem : ∀ i, InWindow i (s.head i)
  tail_mem : ∀ i, InWindow i (s.tail i)

section Traces

variable (tr : List (Event numFifos α)) (e : Event numFifos α)

@[simp] lemma contents_concat : contents (tr ++ [e]) = call (contents tr) e := List.foldl_concat _ _ _ _

lemma askedFrom_concat (q : Fin numFifos → List α) :
    askedFrom q (tr ++ [e]) = askedFrom q tr ++ heads (tr.foldl call q) e := by
  induction tr generalizing q with
  | nil => simp [askedFrom]
  | cons d tr ih =>
    rw [List.cons_append, askedFrom, askedFrom, ih, List.append_assoc]
    rfl

@[simp] lemma asked_concat : asked (tr ++ [e]) = asked tr ++ heads (contents tr) e := askedFrom_concat tr e _

@[simp] lemma answered_concat : answered (tr ++ [e]) = answered tr ++ answered [e] := List.filterMap_append

lemma withinFrom_concat (q : Fin numFifos → List α) :
    WithinFrom fifoDepth q (tr ++ [e]) ↔ WithinFrom fifoDepth q tr ∧ Admits fifoDepth (tr.foldl call q) e := by
  induction tr generalizing q with
  | nil => simp [WithinFrom]
  | cons d tr ih => rw [List.cons_append, WithinFrom, WithinFrom, ih, and_assoc, List.foldl_cons]

/-- The calls before the last one are within the bounds, too. -/
lemma within_concat : Within fifoDepth (tr ++ [e]) ↔ Within fifoDepth tr ∧ Admits fifoDepth (contents tr) e :=
  withinFrom_concat tr e _

end Traces

/-! ## Independence -/

/-- What a call makes of a queue depends on that queue only. -/
lemma call_congr {q q' : Fin numFifos → List α} {i : Fin numFifos} (h : q i = q' i) (e : Event numFifos α) :
    call q e i = call q' e i := by
  cases e with
  | enq idx v | deq idx | updHead idx v =>
    simp only [call, Function.update_apply]
    split
    · rename_i hi
      rw [← hi, h]
    · exact h
  | firstReq idx | firstResp v => exact h

/-- A call with another index leaves a queue as it is. -/
lemma call_of_not_concerns {q : Fin numFifos → List α} {i : Fin numFifos} {e : Event numFifos α}
    (h : e.concerns i = false) : call q e i = q i := by
  cases e with
  | enq idx v | deq idx | updHead idx v =>
    have hne : i ≠ idx := fun hi => by simp [Event.concerns, hi] at h
    exact Function.update_of_ne hne _ _
  | firstReq idx | firstResp v => rfl

/-- **Queues do not affect one another**: what is in a queue is what the calls with its index make of it. -/
lemma contents_filter (tr : List (Event numFifos α)) (i : Fin numFifos) :
    contents (tr.filter fun e => e.concerns i) i = contents tr i := by
  induction tr using List.reverseRecOn with
  | nil => rfl
  | append_singleton tr e ih =>
    rw [List.filter_append, contents_concat]
    cases he : e.concerns i with
    | true =>
      rw [List.filter_cons_of_pos he, List.filter_nil, contents_concat]
      exact call_congr ih e
    | false => rw [List.filter_cons_of_neg (by simp [he]), List.filter_nil, List.append_nil, ih, call_of_not_concerns he]

/-! ## Calls -/

/-- A call makes one event. -/
lemma step_eq_singleton {s s' : UGBramFifos numFifos fifoDepth α} {a : Action numFifos α} {es : List (Event numFifos α)}
    (h : s.step a = some (s', es)) : ∃ e, es = [e] := by
  cases a <;> simp only [step, Option.map_eq_some_iff, Option.some.injEq, Prod.mk.injEq] at h
  · exact ⟨_, h.2.symm⟩
  · obtain ⟨_, -, -, rfl⟩ := h
    exact ⟨_, rfl⟩
  · obtain ⟨_, -, -, rfl⟩ := h
    exact ⟨_, rfl⟩
  · exact ⟨_, h.2.symm⟩
  · obtain ⟨_, -, -, rfl⟩ := h
    exact ⟨_, rfl⟩

variable {tr : List (Event numFifos α)} {s s' : UGBramFifos numFifos fifoDepth α} {q : Fin numFifos → List α}

/-- The places of a window have its addresses. -/
lemma inWindow_slot (i : Fin numFifos) {k : ℕ} (hk : k < fifoDepth) :
    InWindow i (slot i k : BitVec (buffAddrSz numFifos fifoDepth)) := by
  rw [InWindow, slot_toNat i hk, Nat.add_mul]
  omega

/-- Heads and tails are places of their windows. -/
lemma Holds.inWindow (h : s.Holds q) (i : Fin numFifos) : InWindow i (s.head i) ∧ InWindow i (s.tail i) := by
  obtain ⟨k, hk⟩ := h i
  rw [hk.head, hk.tail]
  exact ⟨inWindow_slot i hk.lt, inWindow_slot i (Nat.mod_lt _ (by have := hk.lt; omega))⟩

/-- A module that holds the queues and answers as it should serves them. -/
lemma Serves.of_holds (h : s.Holds (contents tr)) (hr : answered tr ++ s.resp.items = asked tr) : Serves tr s :=
  ⟨h, hr, fun i => (h.inWindow i).1, fun i => (h.inWindow i).2⟩

/-- **A call does what it does to the lists**, if the user may make it. -/
theorem Serves.step (h : Serves tr s) {a : Action numFifos α} {e : Event numFifos α} (hs : s.step a = some (s', [e]))
    (ha : Admits fifoDepth (contents tr) e) : Serves (tr ++ [e]) s' := by
  have hanswers := h.answers
  cases a with
  | enq idx v =>
    simp only [UGBramFifos.step, Option.some.injEq, Prod.mk.injEq, List.cons.injEq, and_true] at hs
    obtain ⟨rfl, rfl⟩ := hs
    refine .of_holds ?_ ?_
    · rw [contents_concat]
      exact h.holds.enq ha v
    · simpa [answered, heads, UGBramFifos.enq] using hanswers
  | firstReq idx =>
    simp only [UGBramFifos.step, Option.map_eq_some_iff, Prod.mk.injEq, List.cons.injEq, and_true] at hs
    obtain ⟨s₁, hs, rfl, rfl⟩ := hs
    obtain ⟨x, xs, hx⟩ := List.exists_cons_of_ne_nil ha
    obtain ⟨hholds, hresp⟩ := h.holds.firstReq hx hs
    refine .of_holds ?_ ?_
    · rwa [contents_concat]
    · have hhead : heads (contents tr) (.firstReq idx) = [x] := by simp [heads, hx]
      rw [answered_concat, asked_concat, hresp, hhead, ← hanswers]
      simp [answered]
  | firstResp =>
    simp only [UGBramFifos.step, Option.map_eq_some_iff, Prod.exists, Prod.mk.injEq, List.cons.injEq, and_true] at hs
    obtain ⟨x, s₁, hs, rfl, rfl⟩ := hs
    obtain ⟨hholds, hresp⟩ := h.holds.firstResp hs
    refine .of_holds ?_ ?_
    · rwa [contents_concat]
    · rw [answered_concat, asked_concat, ← hanswers, hresp]
      simp [answered, heads]
  | deq idx =>
    simp only [UGBramFifos.step, Option.some.injEq, Prod.mk.injEq, List.cons.injEq, and_true] at hs
    obtain ⟨rfl, rfl⟩ := hs
    obtain ⟨x, xs, hx⟩ := List.exists_cons_of_ne_nil ha
    refine .of_holds ?_ ?_
    · rw [contents_concat, call, hx]
      exact h.holds.deq hx
    · simpa [answered, heads, UGBramFifos.deq] using hanswers
  | updHead idx v =>
    simp only [UGBramFifos.step, Option.map_eq_some_iff, Prod.mk.injEq, List.cons.injEq, and_true] at hs
    obtain ⟨s₁, hs, rfl, rfl⟩ := hs
    obtain ⟨x, xs, hx⟩ := List.exists_cons_of_ne_nil ha
    obtain ⟨hholds, hresp⟩ := h.holds.updHead hx hs
    refine .of_holds ?_ ?_
    · rw [contents_concat, call, hx]
      exact hholds
    · rw [hresp]
      simpa [answered, heads] using hanswers

/-- **The module is a bank of queues**, as long as its user keeps within the bounds: each answer is the head of the queue
that was asked for, at the time of the request, and each queue holds what the calls with its own index have left in it. -/
theorem serves_of_within {numFifos fifoDepth : ℕ} {α : Type} (hd : 0 < fifoDepth)
    (buff : BitVec (buffAddrSz numFifos fifoDepth) → α) {tr : List (Event numFifos α)}
    {s : UGBramFifos numFifos fifoDepth α}
    (h : (ugBramFifos numFifos fifoDepth α).Reaches (.reset numFifos fifoDepth buff) tr s)
    (hw : Within fifoDepth tr) :
    Serves tr s ∧ ∀ i, contents tr i = contents (tr.filter fun e => e.concerns i) i := by
  refine ⟨?_, fun i => (contents_filter tr i).symm⟩
  induction h with
  | refl => exact .of_holds (holds_reset hd buff) rfl
  | step a _ hs ih =>
    obtain ⟨e, rfl⟩ := step_eq_singleton hs
    obtain ⟨hinit, hlast⟩ := (within_concat _ e).mp hw
    exact (ih hinit).step hs hlast

/-- Three queues of three elements: the third is filled, and goes round. -/
def thirdQueue :=
  (ugBramFifos 3 3 ℕ).run (.reset 3 3 fun _ => 0)
    [.enq 2 5, .enq 2 6, .enq 0 1, .enq 2 7, .firstReq 2, .updHead 2 8, .firstReq 2, .firstResp, .deq 2, .enq 2 9,
      .firstResp]

theorem serves_of_within_thirdQueue :
    answered thirdQueue.2 = [5, 8] ∧ contents thirdQueue.2 2 = [6, 7, 9] ∧ Serves thirdQueue.2 thirdQueue.1 := by
  have hw : Within 3 thirdQueue.2 := by decide
  exact ⟨by decide, by decide, (serves_of_within (by decide) _ (RuleSystem.reaches_run _ _) hw).1⟩

end UGBramFifos

end Xbsv
