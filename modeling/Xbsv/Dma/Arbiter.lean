import Xbsv.Dma.AddrServer

set_option relaxedAutoImplicit false
set_option autoImplicit false

/-!
# The arbiter of the translation servers

`mkSglAddrServer` shares one in-order server out to `n` requesters. A free-running register says whose
turn it is to make a request; a queue of tokens remembers who made each request that is under way, and
only the owner of the oldest token may read a response. Here the arbiter is the only user of the server
that it shares, which is any server that answers in order.

## Main definitions

* `Xbsv.SglAddrServer.arbiter` — the arbiter over an in-order server, as a rule system.
* `Xbsv.SglAddrServer.Arbitrated` — every request on `servers[i]` is answered on `servers[i]`, in order,
  or its answer is still owed.

## Main results

* `Xbsv.arbiter_arbitrated` — along every run of the arbiter.
-/

namespace Xbsv

open Rules

variable {σ ρ υ κ δ : Type} {n : ℕ} {base : Server σ ρ υ}

/-- A request through the arbiter. -/
lemma mkSglAddrServer_put {i : Fin n} {w w' : SglAddrServer σ n} {req : ρ}
    (h : (mkSglAddrServer base i).put w req = some w') :
    base.put w.server req = some w'.server ∧ w'.tokFifo.items = w.tokFifo.items ++ [i] := by
  simp only [mkSglAddrServer, SglAddrServer.put] at h
  split at h
  · simp only [bind, pure, Option.bind_eq_some_iff, Fifo.enq_eq_some, Option.some.injEq] at h
    obtain ⟨toks, ⟨-, htok⟩, server, hput, rfl⟩ := h
    exact ⟨hput, htok⟩
  · cases h

/-- A response through the arbiter. -/
lemma mkSglAddrServer_get {i : Fin n} {w w' : SglAddrServer σ n} {v : υ} :
    (mkSglAddrServer base i).get w = some (v, w') ↔
      base.get w.server = some (v, w'.server) ∧ w.tokFifo.items = i :: w'.tokFifo.items ∧
        w'.arb = w.arb := by
  simp only [mkSglAddrServer, SglAddrServer.get, bind, pure, Option.bind_eq_some_iff, Prod.exists,
    Fifo.deq_eq_some]
  constructor
  · rintro ⟨tok, toks, htok, h⟩
    split at h
    · rename_i heq
      subst heq
      simp only [Option.bind_eq_some_iff, Prod.exists, Option.some.injEq, Prod.mk.injEq] at h
      obtain ⟨rv, server, hget, rfl, rfl⟩ := h
      exact ⟨hget, htok, rfl⟩
    · cases h
  · rintro ⟨hget, htok, harb⟩
    refine ⟨i, w'.tokFifo, htok, ?_⟩
    rw [if_pos rfl, hget]
    obtain ⟨server, toks, arb⟩ := w'
    simp only at harb
    simp [harb]

namespace SglAddrServer

/-! ## Runs of the arbiter -/

/-- The methods of the servers, the rule of the arbiter, and the rules of the server it shares. -/
inductive Action (ρ κ : Type) (n : ℕ)
  | put (i : Fin n) (req : ρ)
  | get (i : Fin n)
  | incArb
  | rule (k : κ)

/-- What the users of the servers see. -/
inductive Event (ρ υ : Type) (n : ℕ)
  | put (i : Fin n) (req : ρ)
  | get (i : Fin n) (v : υ)

/-- `mkSglAddrServer` with users on every server, over `base` with the rules `env`. -/
def arbiter (base : Server σ ρ υ) (env : RuleSystem σ κ δ) (n : ℕ) :
    RuleSystem (SglAddrServer σ n) (Action ρ κ n) (Event ρ υ n) where
  step s
    | .put i req => do
      let s' ← (mkSglAddrServer base i).put s req
      return (s', [.put i req])
    | .get i => do
      let (v, s') ← (mkSglAddrServer base i).get s
      return (s', [.get i v])
    | .incArb => some (s.incArb, [])
    | .rule k => do
      let (server, _) ← env.step s.server k
      return ({ s with server }, [])

/-- The request that an event makes on `servers[i]`. -/
def Event.put? (i : Fin n) : Event ρ υ n → Option ρ
  | .put j req => if j = i then some req else none
  | _ => none

/-- The response that an event reads from `servers[i]`. -/
def Event.get? (i : Fin n) : Event ρ υ n → Option υ
  | .get j v => if j = i then some v else none
  | _ => none

/-- **Arbitration.** `left` are the requests under way with the servers they were made on, oldest
first. Every request made on `servers[i]` was answered there, with `f` of it and in the order of the
requests, or it is under way and its answer is owed by the shared server; and a response that the
shared server offers can be read from the server of the oldest request, and from no other. -/
structure Arbitrated {env : RuleSystem σ κ δ} {f : ρ → υ} (I : base.InOrder env f)
    (tr : List (Event ρ υ n)) (s : SglAddrServer σ n) (left : List (Fin n × ρ)) : Prop where
  answered : ∀ i, (tr.filterMap (Event.put? i)).map f =
    tr.filterMap (Event.get? i) ++ (left.filter fun x => x.1 = i).map fun x => f x.2
  tokens : s.tokFifo.items = left.map Prod.fst
  owed : I.owes s.server (left.map fun x => f x.2)
  offered : ∀ v w, base.get s.server = some (v, w) → ∃ i req rest, left = (i, req) :: rest ∧
    v = f req ∧ ∀ j, ((mkSglAddrServer base j).get s).isSome ↔ j = i

variable {env : RuleSystem σ κ δ} {f : ρ → υ} {I : base.InOrder env f} {tr : List (Event ρ υ n)}
  {s s' : SglAddrServer σ n} {left : List (Fin n × ρ)}

/-- Who may read follows from the tokens. -/
lemma offered_of_tokens (htok : s.tokFifo.items = left.map Prod.fst)
    (ho : I.owes s.server (left.map fun x => f x.2)) (v : υ) (w : σ)
    (hget : base.get s.server = some (v, w)) :
    ∃ i req rest, left = (i, req) :: rest ∧ v = f req ∧
      ∀ j, ((mkSglAddrServer base j).get s).isSome ↔ j = i := by
  obtain ⟨l, hl, -⟩ := I.get ho hget
  cases left with
  | nil => cases hl
  | cons x rest =>
    obtain ⟨i, req⟩ := x
    rw [List.map_cons] at hl htok
    refine ⟨i, req, rest, rfl, (List.cons.inj hl).1.symm, fun j => ?_⟩
    rw [Option.isSome_iff_exists]
    constructor
    · rintro ⟨⟨u, s''⟩, hj⟩
      rw [mkSglAddrServer_get, htok] at hj
      exact (List.cons.inj hj.2.1).1.symm
    · rintro rfl
      obtain ⟨toks, -, htoks⟩ := Fifo.exists_deq htok
      refine ⟨(v, ⟨w, toks, s.arb⟩), mkSglAddrServer_get.mpr ⟨hget, ?_, rfl⟩⟩
      rw [htok, htoks]

/-- Nothing is under way after reset. -/
lemma arbitrated_reset {w : σ} (hw : I.owes w []) :
    Arbitrated I ([] : List (Event ρ υ n)) (.reset w) [] where
  answered _ := rfl
  tokens := rfl
  owed := hw
  offered := offered_of_tokens rfl hw

/-- A request on `servers[i]` is the youngest under way. -/
lemma Arbitrated.put (h : Arbitrated I tr s left) {i : Fin n} {req : ρ}
    (hs : (mkSglAddrServer base i).put s req = some s') :
    Arbitrated I (tr ++ [Event.put i req]) s' (left ++ [(i, req)]) := by
  obtain ⟨hput, htok⟩ := mkSglAddrServer_put hs
  have htokens : s'.tokFifo.items = (left ++ [(i, req)]).map Prod.fst := by
    rw [htok, h.tokens, List.map_append]
    rfl
  have howed : I.owes s'.server ((left ++ [(i, req)]).map fun x => f x.2) := by
    rw [List.map_append]
    exact I.put h.owed hput
  refine ⟨fun j => ?_, htokens, howed, offered_of_tokens htokens howed⟩
  rw [List.filterMap_append, List.filterMap_append, List.map_append, h.answered j,
    List.filter_append, List.map_append]
  by_cases hj : i = j
  · simp [Event.put?, Event.get?, hj]
  · simp [Event.put?, Event.get?, hj]

/-- A response read from `servers[i]` is that of the oldest request under way, which is one of its
own. -/
lemma Arbitrated.get (h : Arbitrated I tr s left) {i : Fin n} {v : υ}
    (hs : (mkSglAddrServer base i).get s = some (v, s')) :
    ∃ req rest, left = (i, req) :: rest ∧ Arbitrated I (tr ++ [Event.get i v]) s' rest := by
  obtain ⟨hget, htok, -⟩ := mkSglAddrServer_get.mp hs
  obtain ⟨l, hl, ho⟩ := I.get h.owed hget
  have ht := h.tokens
  cases left with
  | nil => cases hl
  | cons x rest =>
    obtain ⟨j, req⟩ := x
    rw [List.map_cons] at hl ht
    obtain ⟨hv, rfl⟩ := List.cons.inj hl
    rw [htok] at ht
    obtain ⟨rfl, ht'⟩ := List.cons.inj ht
    refine ⟨req, rest, rfl, fun j => ?_, ht', ho, offered_of_tokens ht' ho⟩
    have ha := h.answered j
    have hnone : [(.get i v : Event ρ υ n)].filterMap (Event.put? j) = [] := rfl
    rw [List.filterMap_append, hnone, List.append_nil, List.filterMap_append]
    by_cases hj : i = j
    · simpa [Event.put?, Event.get?, hj, hv] using ha
    · simpa [Event.put?, Event.get?, hj] using ha

/-- A step of the arbiter. -/
lemma Arbitrated.step (h : Arbitrated I tr s left) {a : Action ρ κ n} {es : List (Event ρ υ n)}
    (hs : (arbiter base env n).step s a = some (s', es)) :
    ∃ left', Arbitrated I (tr ++ es) s' left' := by
  cases a with
  | put i req =>
    simp only [arbiter, bind, pure, Option.bind_eq_some_iff, Option.some.injEq, Prod.mk.injEq] at hs
    obtain ⟨s₁, hput, rfl, rfl⟩ := hs
    exact ⟨_, h.put hput⟩
  | get i =>
    simp only [arbiter, bind, pure, Option.bind_eq_some_iff, Prod.exists, Option.some.injEq,
      Prod.mk.injEq] at hs
    obtain ⟨v, s₁, hget, rfl, rfl⟩ := hs
    obtain ⟨req, rest, -, h'⟩ := h.get hget
    exact ⟨rest, h'⟩
  | incArb =>
    simp only [arbiter, Option.some.injEq, Prod.mk.injEq] at hs
    obtain ⟨rfl, rfl⟩ := hs
    rw [List.append_nil]
    exact ⟨left, h.answered, h.tokens, h.owed, offered_of_tokens h.tokens h.owed⟩
  | rule k =>
    simp only [arbiter, bind, pure, Option.bind_eq_some_iff, Prod.exists, Option.some.injEq,
      Prod.mk.injEq] at hs
    obtain ⟨server, ds, hrule, rfl, rfl⟩ := hs
    have howed := I.rule h.owed hrule
    rw [List.append_nil]
    exact ⟨left, h.answered, h.tokens, howed, offered_of_tokens h.tokens howed⟩

end SglAddrServer

/-- **The arbiter delivers every response to the one who asked for it.** For any number of servers over
any server that answers requests `r` with `f r` in order, and for every interleaving of requests,
responses, turns of the arbiter and rules of the shared server: each response read from `servers[i]`
answers the oldest request on `servers[i]` not yet answered, the requests not yet answered are owed by
the shared server, and what it offers can be read by the one who asked for it. -/
theorem arbiter_arbitrated {env : RuleSystem σ κ δ} {f : ρ → υ} (I : base.InOrder env f) {w : σ}
    (hw : I.owes w []) (n : ℕ) (tr : List (SglAddrServer.Event ρ υ n)) (s : SglAddrServer σ n)
    (h : (SglAddrServer.arbiter base env n).Reaches (.reset w) tr s) :
    ∃ left, SglAddrServer.Arbitrated I tr s left := by
  refine h.invariant (I := fun tr s => ∃ left, SglAddrServer.Arbitrated I tr s left)
    ⟨[], SglAddrServer.arbitrated_reset hw⟩ ?_
  rintro tr s a s' es ⟨left, ih⟩ hs
  exact ih.step hs

/-- Object 0 has sixteen pages of 4 KB, from address `0x100000` on. -/
def sixteenPages : SGList.Tables :=
  ⟨fun _ => ⟨0, 0⟩, fun _ => ⟨0, 0⟩, fun _ => ⟨16, 0⟩, fun i => 0x100 + i.setWidth 28⟩

/-- Two servers over a port of the memory management unit: a request on each, in turn, and both
responses. -/
def twoServers :=
  (SglAddrServer.arbiter (addrServer 0) (portRules (fun _ _ => 0) 0) 2).run
    (.reset (SGList.State.reset 40 sixteenPages))
    [.put 0 ⟨0, 0x1000⟩, .incArb, .put 1 ⟨0, 0x2000⟩, .rule (.stage1 0), .rule (.stage2 0),
      .rule (.stage3 0), .rule (.stage4 0), .rule (.stage5 0), .get 0, .rule (.stage1 0),
      .rule (.stage2 0), .rule (.stage3 0), .rule (.stage4 0), .rule (.stage5 0), .get 1]

/-- Each server reads the translation of its own request. -/
theorem arbiter_arbitrated_twoServers :
    (∃ left, SglAddrServer.Arbitrated (addrServer_inOrder (fun _ _ => 0) 0 sixteenPages)
        twoServers.2 twoServers.1 left) ∧
      twoServers.2.filterMap (SglAddrServer.Event.get? 0) = [0x101000] ∧
      twoServers.2.filterMap (SglAddrServer.Event.get? 1) = [0x102000] := by
  refine ⟨?_, by decide +kernel, by decide +kernel⟩
  exact arbiter_arbitrated (addrServer_inOrder (fun _ _ => 0) 0 sixteenPages)
    (addrServer_owes_reset (fun _ _ => 0) 0 sixteenPages) 2 _ _ (RuleSystem.reaches_run _ _)

end Xbsv
