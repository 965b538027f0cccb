import Xbsv.Rules.Fifo
import Xbsv.Rules.System

set_option relaxedAutoImplicit false
set_option autoImplicit false

/-!
# Request and response servers

The interface of a server is a pair of guarded methods on the state it lives in. Several servers
may live in one state: that is how one queue comes to be read by more than one consumer. The
rules that move that state on between the methods are not part of the interface. A module that
uses a server is a system over the server's state and its own; `behind` adds the rules of the
server.

## Main definitions

* `Rules.Server` — the methods `put` and `get`.
* `Rules.Server.queue` — the server that answers from a queue, without a rule of its own.
* `Rules.RuleSystem.behind` — a module together with the rules behind its server.
* `Rules.Server.InOrder` — the contract of a server that answers in order.
* `Rules.Server.Uses` — a module that remembers its requests in a queue.

## Main results

* `Rules.RuleSystem.Reaches.invariant_behind` — invariants of the module alone.
* `Rules.Server.Uses.answers` — a module that is the only user of an in-order server gets for each
  request the answer to it.
-/

namespace Rules

/-- A server in states `σ` for requests `ρ` and responses `υ`. -/
structure Server (σ ρ υ : Type*) where
  /-- Accept a request; `none` when the guard does not hold. -/
  put : σ → ρ → Option σ
  /-- Give out a response; `none` when the guard does not hold. -/
  get : σ → Option (υ × σ)

/-- The server that answers a request `r` with `f r`, through a queue of `n` elements. -/
def Server.queue {ρ υ : Type*} (n : ℕ) (f : ρ → υ) : Server (Fifo n υ) ρ υ where
  put q r := q.enq (f r)
  get q := q.deq

namespace RuleSystem

variable {σ S α ε κ δ : Type*}

/-- A module in states `σ × S`, together with the rules of the server it uses, which lives in `σ`.
The events of the server's rules are not shown. -/
def behind (M : RuleSystem (σ × S) α ε) (env : RuleSystem σ κ δ) :
    RuleSystem (σ × S) (α ⊕ κ) ε where
  step s
    | .inl a => M.step s a
    | .inr k => (env.step s.1 k).map fun r => ((r.1, s.2), [])

/-- No rules: those behind a server that has none. -/
def noRules (σ : Type*) : RuleSystem σ Empty Empty := ⟨fun _ k => k.elim⟩

variable {M : RuleSystem (σ × S) α ε} {env : RuleSystem σ κ δ}

/-- The module's own steps are steps of the composition. -/
@[simp] lemma behind_step_inl (s : σ × S) (a : α) : (M.behind env).step s (.inl a) = M.step s a :=
  rfl

/-- The rules of the server leave the module alone. -/
lemma behind_step_inr {s s' : σ × S} {k : κ} {es : List ε}
    (h : (M.behind env).step s (.inr k) = some (s', es)) :
    ∃ ds, env.step s.1 k = some (s'.1, ds) ∧ s'.2 = s.2 ∧ es = [] := by
  simp only [behind, Option.map_eq_some_iff, Prod.exists, Prod.mk.injEq] at h
  obtain ⟨w, ds, hs, rfl, rfl⟩ := h
  exact ⟨ds, hs, rfl, rfl⟩

/-- A run of the server's rules is a run of the composition. -/
lemma Reaches.behind_env {w w' : σ} {ds : List δ} (h : env.Reaches w ds w') (s : S) :
    (M.behind env).Reaches (w, s) [] (w', s) := by
  induction h with
  | refl => exact .refl
  | step k _ hs ih =>
    refine ih.trans (.single (.inr k) ?_)
    simp [behind, hs]

/-- **Invariants of the module alone.** A property of the trace and of the module's own state that
every step of the module preserves, whatever the state of the server, holds along every run of
the composition. -/
theorem Reaches.invariant_behind {I : List ε → S → Prop} {w₀ : σ} {s₀ : S} (h₀ : I [] s₀)
    (hstep : ∀ {tr w s a w' s' es}, I tr s → M.step (w, s) a = some ((w', s'), es) →
      I (tr ++ es) s')
    {tr : List ε} {p : σ × S} (h : (M.behind env).Reaches (w₀, s₀) tr p) : I tr p.2 := by
  refine h.invariant (I := fun tr p => I tr p.2) h₀ ?_
  intro tr p a p' es hi hs
  cases a with
  | inl a => exact hstep hi hs
  | inr k =>
    obtain ⟨-, -, hp, rfl⟩ := behind_step_inr hs
    rw [hp, List.append_nil]
    exact hi

end RuleSystem

/-! ## Servers that answer in order -/

namespace Server

variable {σ S ρ υ α ε κ δ : Type*}

/-- The contract of a server that answers requests `r` with `f r`, in order: in every state it owes a
list of responses, oldest first, which its rules leave as it is. -/
structure InOrder (srv : Server σ ρ υ) (env : RuleSystem σ κ δ) (f : ρ → υ) where
  /-- The responses owed in a state; a relation, so that it can carry an invariant. -/
  owes : σ → List υ → Prop
  put : ∀ {w w' l r}, owes w l → srv.put w r = some w' → owes w' (l ++ [f r])
  get : ∀ {w w' l v}, owes w l → srv.get w = some (v, w') → ∃ l', l = v :: l' ∧ owes w' l'
  rule : ∀ {w w' l k ds}, owes w l → env.step w k = some (w', ds) → owes w' l

/-- A module that uses a server: it queues a request whenever it puts one, and takes a response
whenever it removes the oldest request from its queue. -/
structure Uses (srv : Server σ ρ υ) (M : RuleSystem (σ × S) α ε) where
  /-- The requests that wait for their response, oldest first. -/
  pending : S → List ρ
  /-- The actions that put a request. -/
  asks : α → Bool
  /-- A request put, where an event shows one. -/
  asked : ε → Option ρ
  /-- A request and the response taken for it, where an event shows one. -/
  taken : ε → Option (ρ × υ)
  step : ∀ {w s a w' s' es}, M.step (w, s) a = some ((w', s'), es) →
    (w' = w ∧ pending s' = pending s ∧ es.filterMap asked = [] ∧ es.filterMap taken = []) ∨
    (∃ r, asks a = true ∧ srv.put w r = some w' ∧ pending s' = pending s ++ [r] ∧
      es.filterMap asked = [r] ∧ es.filterMap taken = []) ∨
    (∃ r v, srv.get w = some (v, w') ∧ pending s = r :: pending s' ∧
      es.filterMap asked = [] ∧ es.filterMap taken = [(r, v)])

variable {srv : Server σ ρ υ} {env : RuleSystem σ κ δ} {f : ρ → υ} {M : RuleSystem (σ × S) α ε}

/-- **The only user of an in-order server** gets the answers to its requests: what the server owes is
what the module waits for, and each response taken is that of its request. -/
theorem Uses.answers (U : srv.Uses M) (I : srv.InOrder env f) {w₀ : σ} {s₀ : S}
    (hw : I.owes w₀ []) (hs : U.pending s₀ = []) {tr : List ε} {p : σ × S}
    (h : (M.behind env).Reaches (w₀, s₀) tr p) :
    I.owes p.1 ((U.pending p.2).map f) ∧ ∀ x ∈ tr.filterMap U.taken, x.2 = f x.1 := by
  refine h.invariant (I := fun tr p => I.owes p.1 ((U.pending p.2).map f) ∧
    ∀ x ∈ tr.filterMap U.taken, x.2 = f x.1) ⟨by simpa [hs] using hw, by simp⟩ ?_
  rintro tr ⟨w, s⟩ a ⟨w', s'⟩ es ⟨ho, ht⟩ hstep
  cases a with
  | inl a =>
    rw [List.filterMap_append]
    rcases U.step hstep with ⟨rfl, hp, -, he⟩ | ⟨r, -, hput, hp, -, he⟩ | ⟨r, v, hget, hp, -, he⟩
    · rw [he, List.append_nil]
      exact ⟨by simpa [hp] using ho, ht⟩
    · rw [he, List.append_nil]
      exact ⟨by simpa [hp] using I.put ho hput, ht⟩
    · obtain ⟨l', hl, ho'⟩ := I.get ho hget
      have hl' : f r = v ∧ (U.pending s').map f = l' := by simpa [hp] using hl
      refine ⟨hl'.2 ▸ ho', ?_⟩
      intro x hx
      rw [he, List.mem_append, List.mem_singleton] at hx
      rcases hx with hx | rfl
      · exact ht x hx
      · exact hl'.1.symm
  | inr k =>
    obtain ⟨ds, henv, hp, rfl⟩ := RuleSystem.behind_step_inr hstep
    have hp' : s' = s := hp
    rw [List.append_nil]
    subst hp'
    exact ⟨I.rule ho henv, ht⟩

end Server

end Rules
