import Xbsv.Dma.SGListPipeline
import Xbsv.Dma.MemServer

set_option relaxedAutoImplicit false
set_option autoImplicit false

/-!
# The address servers and their users

An address server of the memory management unit answers in order, with the translation by the tables,
as long as the tables stay as they are: that is `Server.InOrder`, with what the port owes as the list
of responses. The read and the write module are users of their server in the sense of `Server.Uses`.

## Main definitions

* `Xbsv.addrServer_inOrder` — the contract of an address server.
* `Xbsv.memRead_uses`, `Xbsv.memWrite_uses` — the two modules as users.

## Main results

* `Xbsv.exists_response` — what an address server owes can be taken after some rules of the unit.
* `Xbsv.translated_of_alone` — a module that is the only user of its port gets its translations.
-/

namespace Xbsv

open Rules SGList

variable {addrWidth : ℕ} (undef : Page → Offset → BitVec 40)

/-- `put` of an address server is the action `put` of the unit. -/
lemma addrServer_put {i : Fin 2} {s s' : SGList.State addrWidth} {req : ReqTup}
    (h : (addrServer i).put s req = some s') :
    (mmu undef).step s (.put i req) = some (s', [.put i req]) := by
  simp only [addrServer, Option.map_eq_some_iff] at h
  obtain ⟨p, hp, rfl⟩ := h
  simp [mmu, hp]

/-- `get` of an address server is the action `get` of the unit. -/
lemma addrServer_get {i : Fin 2} {s s' : SGList.State addrWidth} {addr : BitVec addrWidth}
    (h : (addrServer i).get s = some (addr, s')) :
    (mmu undef).step s (.get i) = some (s', [.get i addr]) := by
  simp only [addrServer, Option.map_eq_some_iff, Prod.exists, Prod.mk.injEq] at h
  obtain ⟨_, p, hp, rfl, rfl⟩ := h
  simp [mmu, hp]

/-- The rules behind a port show nothing of that port's methods, and no configuration. -/
lemma portRules_step {i : Fin 2} {s s' : SGList.State addrWidth} {a : SGList.Action}
    {es : List (SGList.Event addrWidth)} (h : (portRules undef i).step s a = some (s', es)) :
    (mmu undef).step s a = some (s', es) ∧ puts i es = [] ∧ gets i es = [] ∧
      configCalls es = [] := by
  rw [portRules, RuleSystem.guard_step] at h
  obtain ⟨hb, hs⟩ := h
  refine ⟨hs, ?_⟩
  cases a with
  | put j req =>
    have hj : j ≠ i := by simpa [SGList.Action.isBehind] using hb
    simp only [mmu, bind, pure, Option.bind_eq_some_iff, Option.some.injEq, Prod.mk.injEq] at hs
    obtain ⟨p, -, -, rfl⟩ := hs
    simp [puts, gets, configCalls, hj]
  | get j =>
    have hj : j ≠ i := by simpa [SGList.Action.isBehind] using hb
    simp only [mmu, bind, pure, Option.bind_eq_some_iff, Prod.exists, Option.some.injEq,
      Prod.mk.injEq] at hs
    obtain ⟨addr, p, -, -, rfl⟩ := hs
    simp [puts, gets, configCalls, hj]
  | config c => cases hb
  | stage4 j =>
    simp only [mmu, bind, pure, Option.bind_eq_some_iff, Prod.exists, Option.some.injEq,
      Prod.mk.injEq] at hs
    obtain ⟨err, p, -, q, -, -, rfl⟩ := hs
    simp [puts, gets, configCalls]
  | dmaError =>
    simp only [mmu, bind, pure, Option.bind_eq_some_iff, Prod.exists, Option.some.injEq,
      Prod.mk.injEq] at hs
    obtain ⟨err, q, -, -, rfl⟩ := hs
    simp [puts, gets, configCalls]
  | sendConfigResp =>
    simp only [mmu, bind, pure, Option.bind_eq_some_iff, Prod.exists, Option.some.injEq,
      Prod.mk.injEq] at hs
    obtain ⟨ptr, q, -, -, rfl⟩ := hs
    simp [puts, gets, configCalls]
  | _ =>
    simp only [mmu, bind, pure, Option.bind_eq_some_iff, Option.some.injEq, Prod.mk.injEq] at hs
    obtain ⟨p, -, -, rfl⟩ := hs
    simp [puts, gets, configCalls]

/-- What a port owes along one step of the unit that does not change the configuration. -/
lemma owed_of_step {i : Fin 2} {t : Tables} {s s' : SGList.State addrWidth} {a : SGList.Action}
    {es : List (SGList.Event addrWidth)} (h : (mmu undef).step s a = some (s', es))
    (hc : configCalls es = []) (ht : s.tables = t) (hs : (s.port i).Synced) :
    s'.tables = t ∧ (s'.port i).Synced ∧ gets i es ++ (s'.port i).owed undef t =
      (s.port i).owed undef t ++ (puts i es).map (translate undef t) := by
  subst ht
  obtain ⟨hs', hcons⟩ := mmu_step undef h i hs
  refine ⟨?_, hs', (hcons hc).owed⟩
  rw [mmu_step_tables undef h, hc]
  rfl

/-- **The contract of an address server**: with tables `t` it answers every request with its
translation by `t`, in order. -/
def addrServer_inOrder (i : Fin 2) (t : Tables) :
    (addrServer i : Server (SGList.State addrWidth) ReqTup (BitVec addrWidth)).InOrder
      (portRules undef i) (translate undef t) where
  owes s l := s.tables = t ∧ (s.port i).Synced ∧ (s.port i).owed undef t = l
  put := by
    rintro s s' l r ⟨ht, hs, rfl⟩ h
    obtain ⟨ht', hs', ho⟩ := owed_of_step undef (addrServer_put undef h) rfl ht hs
    exact ⟨ht', hs', by simpa [puts, gets] using ho⟩
  get := by
    rintro s s' l v ⟨ht, hs, rfl⟩ h
    obtain ⟨ht', hs', ho⟩ := owed_of_step undef (addrServer_get undef h) rfl ht hs
    exact ⟨_, by simpa [puts, gets] using ho.symm, ht', hs', rfl⟩
  rule := by
    rintro s s' l a ds ⟨ht, hs, rfl⟩ h
    obtain ⟨hstep, hp, hg, hc⟩ := portRules_step undef h
    obtain ⟨ht', hs', ho⟩ := owed_of_step undef hstep hc ht hs
    exact ⟨ht', hs', by simpa [hp, hg] using ho⟩

/-- After reset an address server owes nothing. -/
lemma addrServer_owes_reset (i : Fin 2) (t : Tables) :
    (addrServer_inOrder undef i t).owes (SGList.State.reset addrWidth t) [] :=
  ⟨rfl, Port.idle_synced, rfl⟩

/-- **The rules of the unit answer**: whatever an address server owes first can be taken after some
rules behind it have fired.

**Proof sketch.** Strong induction on the work left. Without a response ready some rule reduces the
work (`exists_progress`), and it does not change what is owed. -/
theorem exists_response {i : Fin 2} {t : Tables} {s : SGList.State addrWidth} {v : BitVec addrWidth}
    {l : List (BitVec addrWidth)} (ho : (addrServer_inOrder undef i t).owes s (v :: l)) :
    ∃ ds s₁ s₂, (portRules undef i).Reaches s ds s₁ ∧ s₁.tables = t ∧
      (addrServer i).get s₁ = some (v, s₂) := by
  induction hn : s.work i using Nat.strong_induction_on generalizing s with
  | _ n ih =>
    have ho' := ho
    obtain ⟨ht, hs, howed⟩ := ho'
    by_cases hr : (s.port i).pageResponseFifo.items = []
    · have hl : 0 < (s.port i).load := by
        by_contra h0
        rw [(Port.owed_of_load undef (by omega)).1] at howed
        cases howed
      obtain ⟨a, s', es, hstep, hlt, -, -, hb⟩ := exists_progress undef s i hs hl
      have hrule : (portRules undef i).step s a = some (s', es) :=
        RuleSystem.guard_step.mpr ⟨hb hr, hstep⟩
      obtain ⟨ds, s₁, s₂, hrun, ht₁, hget⟩ :=
        ih (s'.work i) (by omega) ((addrServer_inOrder undef i t).rule ho hrule) rfl
      exact ⟨_, s₁, s₂, (RuleSystem.Reaches.single a hrule).trans hrun, ht₁, hget⟩
    · obtain ⟨addr, p, hget, -⟩ := Port.exists_get hr
      have hget' : (addrServer i).get s = some (addr, s.setPort i p) := by
        simp [addrServer, hget]
      obtain ⟨l', hl', -⟩ := (addrServer_inOrder undef i t).get ho hget'
      obtain ⟨rfl, -⟩ := List.cons.inj hl'
      exact ⟨[], s, s.setPort i p, .refl, ht, hget'⟩

/-! ## Users -/

section Users

variable {σ τ κ ε : Type} {numClients numTags dataWidthBytes : ℕ}

/-- The action of the read module puts a request to the address server. -/
def MemRead.Action.asks : MemRead.Action κ numClients dataWidthBytes → Bool
  | .front a => a.asks
  | _ => false

/-- The request that the read module puts to the address server. -/
def MemRead.Event.asked? :
    MemRead.Event ε numClients numTags addrWidth dataWidthBytes → Option ReqTup
  | .front e => e.asked?
  | _ => none

/-- The request that the read module checks, with the address it gets. -/
def MemRead.Event.taken? : MemRead.Event ε numClients numTags addrWidth dataWidthBytes →
    Option (ReqTup × BitVec addrWidth)
  | .front e => e.taken?
  | _ => none

/-- The read module uses its address server through its front end only. -/
def memRead_uses (sgl : Server σ ReqTup (BitVec addrWidth))
    (tg : TagGen τ κ ε numClients numTags) : sgl.Uses (memRead dataWidthBytes sgl tg) where
  pending s := s.front.pending
  asks := MemRead.Action.asks
  asked := MemRead.Event.asked?
  taken := MemRead.Event.taken?
  step := by
    intro w s a w' s' es h
    cases MemRead.fires_of_step h with
    | front fires =>
      simpa [List.filterMap_map, Function.comp_def, MemRead.Action.asks, MemRead.Event.asked?,
        MemRead.Event.taken?] using fires.uses
    | readReq deq enq => exact .inl ⟨rfl, rfl, rfl, rfl⟩
    | readData enq => exact .inl ⟨rfl, rfl, rfl, rfl⟩
    | beat deq index first enq last => exact .inl ⟨rfl, rfl, rfl, rfl⟩
    | lastBeat deq index first enq last ret => exact .inl ⟨rfl, rfl, rfl, rfl⟩
    | deliver deq => exact .inl ⟨rfl, rfl, rfl, rfl⟩

/-- The action of the write module puts a request to the address server. -/
def MemWrite.Action.asks : MemWrite.Action κ numClients → Bool
  | .front a => a.asks
  | _ => false

/-- The request that the write module puts to the address server. -/
def MemWrite.Event.asked? :
    MemWrite.Event ε numClients numTags addrWidth dataWidthBytes → Option ReqTup
  | .front e => e.asked?
  | _ => none

/-- The request that the write module checks, with the address it gets. -/
def MemWrite.Event.taken? : MemWrite.Event ε numClients numTags addrWidth dataWidthBytes →
    Option (ReqTup × BitVec addrWidth)
  | .front e => e.taken?
  | _ => none

/-- The write module uses its address server through its front end only. -/
def memWrite_uses (sgl : Server σ ReqTup (BitVec addrWidth))
    (tg : TagGen τ κ ε numClients numTags)
    (stream : Fin numClients → ℕ → ObjectData (dataWidthBytes * 8)) :
    sgl.Uses (memWrite sgl tg stream) where
  pending s := s.front.pending
  asks := MemWrite.Action.asks
  asked := MemWrite.Event.asked?
  taken := MemWrite.Event.taken?
  step := by
    intro w s a w' s' es h
    cases MemWrite.fires_of_step h with
    | front fires =>
      simpa [List.filterMap_map, Function.comp_def, MemWrite.Action.asks, MemWrite.Event.asked?,
        MemWrite.Event.taken?] using fires.uses
    | writeReq deq enq => exact .inl ⟨rfl, rfl, rfl, rfl⟩
    | writeData first resp deq => exact .inl ⟨rfl, rfl, rfl, rfl⟩
    | writeDone index deq enq => exact .inl ⟨rfl, rfl, rfl, rfl⟩
    | writeDoneComp deq index ret => exact .inl ⟨rfl, rfl, rfl, rfl⟩

/-- **A module alone on its port**: every request that the read or the write module checks has got its
own translation, whatever the other port does. -/
theorem translated_of_alone (t : Tables) (g₀ : τ) (tg : TagGen τ κ ε numClients numTags)
    (stream : Fin numClients → ℕ → ObjectData (dataWidthBytes * 8)) :
    (∀ tr p, ((memRead dataWidthBytes (addrServer 0) tg).behind (portRules undef 0)).Reaches
        (SGList.State.reset addrWidth t, .reset g₀) tr p →
      ∀ x ∈ tr.filterMap MemRead.Event.taken?, x.2 = translate undef t x.1) ∧
    (∀ tr p, ((memWrite (addrServer 1) tg stream).behind (portRules undef 1)).Reaches
        (SGList.State.reset addrWidth t, .reset g₀) tr p →
      ∀ x ∈ tr.filterMap MemWrite.Event.taken?, x.2 = translate undef t x.1) := by
  refine ⟨fun tr p h => ?_, fun tr p h => ?_⟩
  · exact ((memRead_uses (addrServer 0) tg).answers (addrServer_inOrder undef 0 t)
      (addrServer_owes_reset undef 0 t) rfl h).2
  · exact ((memWrite_uses (addrServer 1) tg stream).answers (addrServer_inOrder undef 1 t)
      (addrServer_owes_reset undef 1 t) rfl h).2

end Users

end Xbsv
