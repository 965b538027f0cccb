import Xbsv.Dma.SharedTranslation
import Xbsv.Rules.Parts

set_option relaxedAutoImplicit false
set_option autoImplicit false

/-!
# The read server and the write server over one unit

`mkConfigMemServerRW` has a read server and a write server that share the memory management unit, each on a port of its
own. While nothing is configured, and the software asks for no translation, a run of both is a run of each of them: what
the other one does to the unit is something that the rules of the unit behind the port can do. In a server, a run is a run
of each of its masters, with everything else as the environment.

## Main definitions

* `Xbsv.ConfigServer.masterEvents` — the events of one master.
* `Xbsv.ConfigServerRW.Action.isTransfer` — the steps in which nothing is configured.
* `Xbsv.ConfigServerRW.readerEvents`, `Xbsv.ConfigServerRW.writerEvents` — the events of the two servers.

## Main results

* `Xbsv.ConfigServer.reaches_master` — a run of a server is a run of each master.
* `Xbsv.ConfigServerRW.reaches_servers` — a run of both servers is a run of each of them.
* `Xbsv.ConfigServerRW.isConfig_of_transfer` — and nothing is configured in it.
-/

namespace Xbsv

open Rules SGList

/-! ## A master among others -/

namespace ConfigServer

section Master

variable {S A E : Type} {addrWidth n : ℕ} {undef : Page → Offset → BitVec 40} {port : Fin 2} {errorType : DmaErrorType}
  {master : Fin n → Server (SglAddrServer (SGList.State addrWidth) n) ReqTup (BitVec addrWidth) →
    RuleSystem (SglAddrServer (SGList.State addrWidth) n × S) A E}
  {s s' : ConfigServer S addrWidth n} {a : Action A n} {es tr : List (Event E addrWidth n)}

/-- The events of one master. -/
def masterEvents (i : Fin n) (tr : List (Event E addrWidth n)) : List E :=
  tr.filterMap fun
    | .master j e => if j = i then some e else none
    | _ => none

lemma masterEvents_append (i : Fin n) (tr es : List (Event E addrWidth n)) :
    masterEvents i (tr ++ es) = masterEvents i tr ++ masterEvents i es := List.filterMap_append

lemma masterEvents_self (i : Fin n) (es : List E) :
    masterEvents i (es.map (.master i) : List (Event E addrWidth n)) = es := by
  rw [masterEvents, List.filterMap_map]
  simp

lemma masterEvents_of_ne {i j : Fin n} (h : j ≠ i) (es : List E) :
    masterEvents i (es.map (.master j) : List (Event E addrWidth n)) = [] := by
  rw [masterEvents, List.filterMap_map]
  simp [h]

lemma mem_masterEvents {i : Fin n} {e : E} : e ∈ masterEvents i tr ↔ Event.master i e ∈ tr := by
  rw [masterEvents, List.mem_filterMap]
  constructor
  · rintro ⟨e', he', heq⟩
    cases e' with
    | master j d =>
      simp only at heq
      split at heq
      case isTrue hj =>
        cases heq
        rwa [← hj]
      case isFalse => cases heq
    | addrRequest | addrResponse | config | dmaError => cases heq
  · intro he
    exact ⟨_, he, if_pos rfl⟩

/-- What a step does to a master: it is one of the master's own, or it leaves the master alone. -/
lemma step_master (h : (configMemServer undef port errorType master).step s a = some (s', es)) (i : Fin n) :
    (∃ b, (master i (mkSglAddrServer (addrServer port) i)).step (s.sgl, s.masters i) b =
        some ((s'.sgl, s'.masters i), masterEvents i es)) ∨
      s'.masters i = s.masters i ∧ masterEvents i es = [] := by
  cases a with
  | master j b =>
    simp only [configMemServer, bind, pure, Option.bind_eq_some_iff, Prod.exists, Option.some.injEq, Prod.mk.injEq] at h
    obtain ⟨sgl, m, ms, hs, rfl, rfl⟩ := h
    by_cases hj : j = i
    · subst hj
      left
      refine ⟨b, ?_⟩
      rw [masterEvents_self, hs]
      simp only [Function.update_self]
    · right
      exact ⟨Function.update_of_ne (Ne.symm hj) _ _, masterEvents_of_ne hj ms⟩
  | incArb =>
    cases h
    exact .inr ⟨rfl, rfl⟩
  | addrRequest pointer offset =>
    simp only [configMemServer, addrRequest, bind, pure, Option.bind_eq_some_iff, Option.some.injEq, Prod.mk.injEq] at h
    obtain ⟨_, ⟨_, -, _, -, rfl⟩, rfl, rfl⟩ := h
    exact .inr ⟨rfl, rfl⟩
  | sglistEntry =>
    simp only [configMemServer, sglistEntry, bind, pure, Option.bind_eq_some_iff, Prod.exists, Option.some.injEq,
      Prod.mk.injEq] at h
    obtain ⟨_, _, ⟨_, _, -, _, _, -, rfl, rfl⟩, rfl, rfl⟩ := h
    exact .inr ⟨rfl, rfl⟩
  | sglist pref addr len =>
    simp only [configMemServer, sglist, bind, pure, Option.bind_eq_some_iff, Option.some.injEq, Prod.mk.injEq] at h
    obtain ⟨_, ⟨_, -, _, -, rfl⟩, rfl, rfl⟩ := h
    exact .inr ⟨rfl, rfl⟩
  | region pointer barr8 barr4 barr0 =>
    simp only [configMemServer, bind, pure, Option.bind_eq_some_iff, Option.some.injEq, Prod.mk.injEq] at h
    obtain ⟨_, -, rfl, rfl⟩ := h
    exact .inr ⟨rfl, rfl⟩
  | dmaError =>
    simp only [configMemServer, bind, pure, Option.bind_eq_some_iff, Prod.exists, Option.some.injEq, Prod.mk.injEq] at h
    obtain ⟨_, _, -, rfl, rfl⟩ := h
    exact .inr ⟨rfl, rfl⟩
  | mmu b =>
    simp only [configMemServer, bind, pure, Option.bind_eq_some_iff, Prod.exists, Option.some.injEq, Prod.mk.injEq] at h
    obtain ⟨_, _, -, rfl, rfl⟩ := h
    exact .inr ⟨rfl, rfl⟩

/-- **A run of a server is a run of each master**, in an environment that does what it likes to the arbiter. -/
theorem reaches_master {s₀ : ConfigServer S addrWidth n}
    (h : (configMemServer undef port errorType master).Reaches s₀ tr s) (i : Fin n) :
    ((master i (mkSglAddrServer (addrServer port) i)).behind (RuleSystem.anything _)).Reaches
      (s₀.sgl, s₀.masters i) (masterEvents i tr) (s.sgl, s.masters i) := by
  induction h with
  | refl => exact .refl
  | @step tr s s' es a _ hs ih =>
    rw [masterEvents_append]
    rcases step_master hs i with ⟨b, hb⟩ | ⟨hm, hes⟩
    · exact ih.step (.inl b) hb
    · rw [hes, hm]
      exact ih.step (.inr s'.sgl) rfl

end Master

/-! ## The unit seen from the other port -/

section Unit

variable {S A E : Type} {addrWidth n : ℕ} {undef : Page → Offset → BitVec 40} {port other : Fin 2}
  {errorType : DmaErrorType}
  {master : Fin n → Server (SglAddrServer (SGList.State addrWidth) n) ReqTup (BitVec addrWidth) →
    RuleSystem (SglAddrServer (SGList.State addrWidth) n × S) A E}
  (U : ∀ i, (mkSglAddrServer (addrServer port) i).Uses (master i (mkSglAddrServer (addrServer port) i)))
  {s s' : ConfigServer S addrWidth n} {a : Action A n} {es tr : List (Event E addrWidth n)}

/-- What the server on the other port may have done to the unit. -/
def Moves (undef : Page → Offset → BitVec 40) (other : Fin 2) (u u' : SGList.State addrWidth) : Prop :=
  u' = u ∨ ∃ b es, (portRules undef other).step u b = some (u', es)

include U in
/-- A step of a server, seen from the other port. -/
lemma own_moves (hne : port ≠ other) (ha : a.isOwn) (hempty : s.addrReqFifo.items = [])
    (h : (configMemServer undef port errorType master).step s a = some (s', es)) :
    Moves undef other s.sgl.server s'.sgl.server ∧ s'.addrReqFifo.items = [] := by
  cases a with
  | master i b =>
    simp only [configMemServer, bind, pure, Option.bind_eq_some_iff, Prod.exists, Option.some.injEq, Prod.mk.injEq] at h
    obtain ⟨sgl, m, ms, hs, rfl, -⟩ := h
    refine ⟨?_, hempty⟩
    rcases (U i).step hs with ⟨heq, -⟩ | ⟨req, -, hput, -⟩ | ⟨req, v, hget, -⟩
    · exact .inl (congrArg SglAddrServer.server heq)
    · have hstep := addrServer_put undef (mkSglAddrServer_put hput).1
      exact .inr ⟨.put port req, _, RuleSystem.guard_step.mpr ⟨by simpa [SGList.Action.isBehind] using hne, hstep⟩⟩
    · have hstep := addrServer_get undef (mkSglAddrServer_get.mp hget).1
      exact .inr ⟨.get port, _, RuleSystem.guard_step.mpr ⟨by simpa [SGList.Action.isBehind] using hne, hstep⟩⟩
  | incArb =>
    cases h
    exact ⟨.inl rfl, hempty⟩
  | sglistEntry =>
    simp only [configMemServer, sglistEntry, bind, pure, Option.bind_eq_some_iff, Prod.exists, Fifo.deq_eq_some] at h
    obtain ⟨_, _, ⟨_, _, hdeq, -⟩, -⟩ := h
    rw [hempty] at hdeq
    cases hdeq
  | dmaError =>
    simp only [configMemServer, bind, pure, Option.bind_eq_some_iff, Prod.exists, Option.some.injEq, Prod.mk.injEq] at h
    obtain ⟨_, _, -, rfl, -⟩ := h
    exact ⟨.inl rfl, hempty⟩
  | addrRequest | sglist | region | mmu => cases ha

/-- Own steps configure nothing. -/
lemma own_isConfig (ha : a.isOwn) (h : (configMemServer undef port errorType master).step s a = some (s', es)) :
    ∀ e ∈ es, e.isConfig = false := by
  intro e he
  cases a with
  | master i b =>
    simp only [configMemServer, bind, pure, Option.bind_eq_some_iff, Prod.exists, Option.some.injEq, Prod.mk.injEq] at h
    obtain ⟨_, _, _, -, -, rfl⟩ := h
    obtain ⟨_, -, rfl⟩ := List.mem_map.mp he
    rfl
  | incArb =>
    cases h
    cases he
  | sglistEntry =>
    simp only [configMemServer, bind, pure, Option.bind_eq_some_iff, Prod.exists, Option.some.injEq, Prod.mk.injEq] at h
    obtain ⟨_, _, -, -, rfl⟩ := h
    rw [List.mem_singleton.mp he]
    rfl
  | dmaError =>
    simp only [configMemServer, bind, pure, Option.bind_eq_some_iff, Prod.exists, Option.some.injEq, Prod.mk.injEq] at h
    obtain ⟨_, _, -, -, rfl⟩ := h
    rw [List.mem_singleton.mp he]
    rfl
  | addrRequest | sglist | region | mmu => cases ha

variable {asks : A → Bool} {s₀ : ConfigServer S addrWidth n}

/-- The runs of a server go on when the other port has moved the unit. -/
lemma reaches_withUnit {u : SGList.State addrWidth}
    (h : ((configMemServer undef port errorType master).guard fun s a => separate asks s a).Reaches s₀ tr s)
    (hu : Moves undef port s.sgl.server u) :
    ((configMemServer undef port errorType master).guard fun s a => separate asks s a).Reaches s₀ tr (s.withUnit u) := by
  rcases hu with rfl | ⟨b, es, hb⟩
  · exact h
  · have hstep : (configMemServer undef port errorType master).step s (.mmu b) = some (s.withUnit u, []) := by
      simp [configMemServer, hb, withUnit]
    have := h.step (.mmu b) (RuleSystem.guard_step.mpr ⟨rfl, hstep⟩)
    rwa [List.append_nil] at this

/-- Own steps are kept apart from requests of the software, when there are none. -/
lemma separate_own (ha : a.isOwn) (hempty : s.addrReqFifo.items = []) : separate asks s a := by
  cases a with
  | master i b => simp [separate, hempty]
  | incArb | sglistEntry | dmaError => rfl
  | addrRequest | sglist | region | mmu => cases ha

end Unit

end ConfigServer

/-! ## Both servers -/

namespace ConfigServerRW

section Servers

variable {SR SW AR AW ER EW : Type} {addrWidth n : ℕ} {undef : Page → Offset → BitVec 40} {errorR errorW : DmaErrorType}
  {masterR : Fin n → Server (SglAddrServer (SGList.State addrWidth) n) ReqTup (BitVec addrWidth) →
    RuleSystem (SglAddrServer (SGList.State addrWidth) n × SR) AR ER}
  {masterW : Fin n → Server (SglAddrServer (SGList.State addrWidth) n) ReqTup (BitVec addrWidth) →
    RuleSystem (SglAddrServer (SGList.State addrWidth) n × SW) AW EW}

/-- Nothing is configured, and the software does not ask for translations. -/
def Action.isTransfer : Action AR AW n → Bool
  | .reader _ => true
  | .writer _ => true
  | .dmaError => true
  | .mmu _ => true
  | _ => false

/-- The events of the read server. -/
def readerEvents (tr : List (Event ER EW addrWidth n)) : List (ConfigServer.Event ER addrWidth n) :=
  tr.filterMap fun
    | .reader e => some e
    | _ => none

/-- The events of the write server. -/
def writerEvents (tr : List (Event ER EW addrWidth n)) : List (ConfigServer.Event EW addrWidth n) :=
  tr.filterMap fun
    | .writer e => some e
    | _ => none

section Events

variable (tr es : List (Event ER EW addrWidth n)) (rs : List (ConfigServer.Event ER addrWidth n))
  (ws : List (ConfigServer.Event EW addrWidth n))

lemma readerEvents_append : readerEvents (tr ++ es) = readerEvents tr ++ readerEvents es := List.filterMap_append

lemma writerEvents_append : writerEvents (tr ++ es) = writerEvents tr ++ writerEvents es := List.filterMap_append

lemma readerEvents_reader : readerEvents (rs.map .reader : List (Event ER EW addrWidth n)) = rs := by
  rw [readerEvents, List.filterMap_map]
  exact List.filterMap_some

lemma readerEvents_writer : readerEvents (ws.map .writer : List (Event ER EW addrWidth n)) = [] := by
  rw [readerEvents, List.filterMap_map]
  simp

lemma writerEvents_writer : writerEvents (ws.map .writer : List (Event ER EW addrWidth n)) = ws := by
  rw [writerEvents, List.filterMap_map]
  exact List.filterMap_some

lemma writerEvents_reader : writerEvents (rs.map .reader : List (Event ER EW addrWidth n)) = [] := by
  rw [writerEvents, List.filterMap_map]
  simp

end Events

variable (UR : ∀ i, (mkSglAddrServer (addrServer 0) i).Uses (masterR i (mkSglAddrServer (addrServer 0) i)))
  (UW : ∀ i, (mkSglAddrServer (addrServer 1) i).Uses (masterW i (mkSglAddrServer (addrServer 1) i)))
  (asksR : AR → Bool) (asksW : AW → Bool)

include UR UW in
/-- **A run of both servers is a run of each of them**, with its requests kept apart from those of the software.

**Proof sketch.** A step of one server is a step in its own run; in the run of the other server it is a step of the unit
behind the port of that server, or none. A step of the unit is one in both runs. -/
theorem reaches_servers {t : Tables} {r : SR} {w : SW} {tr : List (Event ER EW addrWidth n)}
    {s : ConfigServerRW SR SW addrWidth n}
    (h : ((configMemServerRW undef (configMemServer undef 0 errorR masterR) (configMemServer undef 1 errorW masterW)).guard
      fun _ a => a.isTransfer).Reaches (.reset t r w) tr s) :
    ((configMemServer undef 0 errorR masterR).guard fun s a => ConfigServer.separate asksR s a).Reaches
        (.reset t r) (readerEvents tr) s.reader ∧
      ((configMemServer undef 1 errorW masterW).guard fun s a => ConfigServer.separate asksW s a).Reaches
        (.reset t w) (writerEvents tr) s.writer := by
  suffices hinv : (((configMemServer undef 0 errorR masterR).guard fun s a => ConfigServer.separate asksR s a).Reaches
        (.reset t r) (readerEvents tr) s.reader ∧
      ((configMemServer undef 1 errorW masterW).guard fun s a => ConfigServer.separate asksW s a).Reaches
        (.reset t w) (writerEvents tr) s.writer) ∧
      s.reader.addrReqFifo.items = [] ∧ s.writer.addrReqFifo.items = [] from hinv.1
  induction h with
  | refl => exact ⟨⟨.refl, .refl⟩, rfl, rfl⟩
  | @step tr s s' es a _ hs ih =>
    obtain ⟨⟨hR, hW⟩, hemptyR, hemptyW⟩ := ih
    obtain ⟨ha, hs⟩ := RuleSystem.guard_step.mp hs
    rw [readerEvents_append, writerEvents_append]
    cases a with
    | reader a =>
      simp only [configMemServerRW] at hs
      split at hs
      case isTrue hown =>
        simp only [bind, pure, Option.bind_eq_some_iff, Prod.exists, Option.some.injEq, Prod.mk.injEq] at hs
        obtain ⟨reader, rs, hstep, rfl, rfl⟩ := hs
        obtain ⟨hmoves, hempty⟩ := ConfigServer.own_moves UR (by decide : (0 : Fin 2) ≠ 1) hown hemptyR hstep
        rw [s.shared] at hmoves
        rw [readerEvents_reader, writerEvents_reader, List.append_nil]
        exact ⟨⟨hR.step a (RuleSystem.guard_step.mpr ⟨ConfigServer.separate_own hown hemptyR, hstep⟩),
          ConfigServer.reaches_withUnit hW hmoves⟩, hempty, hemptyW⟩
      case isFalse => cases hs
    | writer a =>
      simp only [configMemServerRW] at hs
      split at hs
      case isTrue hown =>
        simp only [bind, pure, Option.bind_eq_some_iff, Prod.exists, Option.some.injEq, Prod.mk.injEq] at hs
        obtain ⟨writer, ws, hstep, rfl, rfl⟩ := hs
        obtain ⟨hmoves, hempty⟩ := ConfigServer.own_moves UW (by decide : (1 : Fin 2) ≠ 0) hown hemptyW hstep
        rw [← s.shared] at hmoves
        rw [readerEvents_writer, writerEvents_writer, List.append_nil]
        exact ⟨⟨ConfigServer.reaches_withUnit hR hmoves,
          hW.step a (RuleSystem.guard_step.mpr ⟨ConfigServer.separate_own hown hemptyW, hstep⟩)⟩, hemptyR, hempty⟩
      case isFalse => cases hs
    | dmaError =>
      simp only [configMemServerRW, bind, pure, Option.bind_eq_some_iff, Prod.exists, Option.some.injEq, Prod.mk.injEq]
        at hs
      obtain ⟨_, _, -, rfl, rfl⟩ := hs
      rw [show readerEvents [_] = [] from rfl, show writerEvents [_] = [] from rfl, List.append_nil, List.append_nil]
      exact ⟨⟨hR, hW⟩, hemptyR, hemptyW⟩
    | mmu b =>
      simp only [configMemServerRW] at hs
      split at hs
      case isTrue hbehind =>
        simp only [bind, pure, Option.bind_eq_some_iff, Prod.exists, Option.some.injEq, Prod.mk.injEq] at hs
        obtain ⟨u, ds, hstep, rfl, rfl⟩ := hs
        rw [Bool.and_eq_true] at hbehind
        have hstepW := hstep
        rw [unit, s.shared] at hstepW
        have hmovesR : ConfigServer.Moves undef 0 s.reader.sgl.server u :=
          .inr ⟨b, ds, RuleSystem.guard_step.mpr ⟨hbehind.1, hstep⟩⟩
        have hmovesW : ConfigServer.Moves undef 1 s.writer.sgl.server u :=
          .inr ⟨b, ds, RuleSystem.guard_step.mpr ⟨hbehind.2, hstepW⟩⟩
        rw [show readerEvents [] = [] from rfl, show writerEvents [] = [] from rfl, List.append_nil, List.append_nil]
        exact ⟨⟨ConfigServer.reaches_withUnit hR hmovesR, ConfigServer.reaches_withUnit hW hmovesW⟩, hemptyR, hemptyW⟩
      case isFalse => cases hs
    | addrRequest | sglist | region => cases ha

/-- Nothing is configured. -/
lemma isConfig_of_transfer {s₀ s : ConfigServerRW SR SW addrWidth n} {tr : List (Event ER EW addrWidth n)}
    (h : ((configMemServerRW undef (configMemServer undef 0 errorR masterR) (configMemServer undef 1 errorW masterW)).guard
      fun _ a => a.isTransfer).Reaches s₀ tr s) :
    (∀ e ∈ readerEvents tr, e.isConfig = false) ∧ ∀ e ∈ writerEvents tr, e.isConfig = false := by
  refine h.invariant (I := fun tr _ => (∀ e ∈ readerEvents tr, e.isConfig = false) ∧
    ∀ e ∈ writerEvents tr, e.isConfig = false) ⟨by simp [readerEvents], by simp [writerEvents]⟩ ?_
  intro tr s a s' es ⟨hR, hW⟩ hs
  obtain ⟨ha, hs⟩ := RuleSystem.guard_step.mp hs
  rw [readerEvents_append, writerEvents_append, List.forall_mem_append, List.forall_mem_append]
  cases a with
  | reader a =>
    simp only [configMemServerRW] at hs
    split at hs
    case isTrue hown =>
      simp only [bind, pure, Option.bind_eq_some_iff, Prod.exists, Option.some.injEq, Prod.mk.injEq] at hs
      obtain ⟨reader, rs, hstep, -, rfl⟩ := hs
      rw [readerEvents_reader, writerEvents_reader]
      exact ⟨⟨hR, ConfigServer.own_isConfig hown hstep⟩, hW, by simp⟩
    case isFalse => cases hs
  | writer a =>
    simp only [configMemServerRW] at hs
    split at hs
    case isTrue hown =>
      simp only [bind, pure, Option.bind_eq_some_iff, Prod.exists, Option.some.injEq, Prod.mk.injEq] at hs
      obtain ⟨writer, ws, hstep, -, rfl⟩ := hs
      rw [readerEvents_writer, writerEvents_writer]
      exact ⟨⟨hR, by simp⟩, hW, ConfigServer.own_isConfig hown hstep⟩
    case isFalse => cases hs
  | dmaError =>
    simp only [configMemServerRW, bind, pure, Option.bind_eq_some_iff, Prod.exists, Option.some.injEq, Prod.mk.injEq]
      at hs
    obtain ⟨_, _, -, -, rfl⟩ := hs
    exact ⟨⟨hR, by simp [readerEvents]⟩, hW, by simp [writerEvents]⟩
  | mmu b =>
    simp only [configMemServerRW] at hs
    split at hs
    case isTrue =>
      simp only [bind, pure, Option.bind_eq_some_iff, Prod.exists, Option.some.injEq, Prod.mk.injEq] at hs
      obtain ⟨_, _, -, -, rfl⟩ := hs
      exact ⟨⟨hR, by simp [readerEvents]⟩, hW, by simp [writerEvents]⟩
    case isFalse => cases hs
  | addrRequest | sglist | region => cases ha

end Servers

end ConfigServerRW

end Xbsv
