import Xbsv.Engine.MemreadEngine
import Xbsv.Engine.WriteBursts

set_option relaxedAutoImplicit false
set_option autoImplicit false

/-!
# Short bursts and the credit of the write engine

All bursts of a server are put with the same length, but the last burst of a command may be shorter. The
request says so; the loader takes credit for a full burst nevertheless, and the burst funnel collects one.
Where no burst is short the three agree: the requests cover the commands, each gets its own beats, the
credit is what is in the buffers and not claimed, and a command is complete with the answer to its last
burst.

## Main definitions

* `Xbsv.MemwriteEngine.Fixed` — the commands of a server have bursts of one length, and none is short.
* `Xbsv.MemwriteEngine.Record.storedTo` — the beats given for a server, with their places.
* `Xbsv.MemwriteEngine.Served` — what holds of a server at every moment.

## Main results

* `Xbsv.MemwriteEngine.Writes.undisturbed` — commands with bursts of one length disturb no burst.
* `Xbsv.memwrite_served` — what holds of every server, where no burst is short.
-/

namespace Xbsv

open Rules

/-! ## What is dealt -/

section Deal

variable {k : ℕ} {α β γ : Type}

/-- Pairs of beginnings are a beginning of the pairs. -/
lemma zip_prefix_zip {as as' : List α} {bs bs' : List β} (ha : as <+: as') (hb : bs <+: bs') :
    as.zip bs <+: as'.zip bs' := by
  induction as generalizing bs as' bs' with
  | nil => exact List.nil_prefix
  | cons a as ih =>
    obtain ⟨x, rfl⟩ := ha
    cases bs with
    | nil => exact List.nil_prefix
    | cons b bs =>
      obtain ⟨y, rfl⟩ := hb
      exact (List.prefix_cons_inj _).mpr (ih (List.prefix_append _ _) (List.prefix_append _ _))

/-- No more is dealt from an input than the calls ask for. -/
lemma length_fromInput_deal_le (st : Fin k → List α) (cs : List (Fin k × ℕ)) (i : Fin k) :
    (BurstFunnel.fromInput (deal st cs) i).length ≤ (BurstFunnel.fromInput cs i).sum := by
  induction cs generalizing st with
  | nil => exact Nat.le_refl 0
  | cons c cs ih =>
    obtain ⟨j, n⟩ := c
    have hrest := ih (Function.update st j ((st j).drop n))
    rw [deal, BurstFunnel.fromInput_append, BurstFunnel.fromInput_map, BurstFunnel.fromInput_cons,
      List.length_append, List.sum_append]
    by_cases hj : j = i
    · simp only [hj, if_true, List.length_take, List.sum_singleton] at hrest ⊢
      omega
    · simpa [hj] using hrest

/-- What is dealt for items, each of which asks for as many elements as it has labels: the elements from
input `i` get the labels of its items in turn, if there are enough. -/
lemma fromInput_zip_deal {label : γ → List β} {rs : List (Fin k × γ)} {st : Fin k → List α}
    (hst : ∀ i, ((BurstFunnel.fromInput rs i).map fun r => (label r).length).sum ≤ (st i).length)
    (i : Fin k) :
    BurstFunnel.fromInput (((rs.flatMap fun r => (label r.2).map fun l => (r.1, l)).zip
        (deal st (rs.map fun r => (r.1, (label r.2).length)))).map fun e => (e.1.1, (e.1.2, e.2.2))) i =
      ((BurstFunnel.fromInput rs i).flatMap label).zip (st i) := by
  induction rs generalizing st with
  | nil => simp [BurstFunnel.fromInput]
  | cons r rs ih =>
    obtain ⟨j, r⟩ := r
    have hown := hst j
    rw [BurstFunnel.fromInput_cons, if_pos rfl, List.map_append, List.sum_append, List.map_singleton,
      List.sum_singleton] at hown
    have hlen : ((label r).map fun l => (j, l)).length =
        (((st j).take (label r).length).map fun v => (j, v)).length := by
      rw [List.length_map, List.length_map, List.length_take]
      omega
    have hst' : ∀ i, ((BurstFunnel.fromInput rs i).map fun r => (label r).length).sum ≤
        (Function.update st j ((st j).drop (label r).length) i).length := by
      intro i
      by_cases hi : i = j
      · subst hi
        rw [Function.update_self, List.length_drop]
        omega
      · have hi' := hst i
        rw [BurstFunnel.fromInput_cons, if_neg fun he => hi he.symm, List.nil_append] at hi'
        rwa [Function.update_of_ne hi]
    have hrest := ih hst'
    have hzip : (((label r).map fun l => (j, l)).zip
        (((st j).take (label r).length).map fun v => (j, v))).map
          (fun e => (e.1.1, (e.1.2, e.2.2))) =
        ((label r).zip ((st j).take (label r).length)).map fun e => (j, e) := by
      rw [List.zip_map, List.map_map]
      rfl
    rw [List.flatMap_cons, List.map_cons, deal, List.zip_append hlen, List.map_append,
      BurstFunnel.fromInput_append, hrest, hzip, BurstFunnel.fromInput_map,
      BurstFunnel.fromInput_cons]
    by_cases hj : j = i
    · subst hj
      have hsplit : (label r).length = ((st j).take (label r).length).length := by
        rw [List.length_take]
        omega
      rw [if_pos rfl, if_pos rfl, List.flatMap_append, List.flatMap_singleton, Function.update_self,
        ← List.zip_append hsplit, List.take_append_drop]
    · have hij : i ≠ j := fun he => hj he.symm
      rw [if_neg hj, if_neg hj, List.nil_append, List.nil_append, Function.update_of_ne hij]

end Deal

namespace MemwriteEngine

variable {dataWidth dataWidthBytes cmdQDepth numServers bufferSizeBeats : ℕ}

/-- A command of server `i` has bursts of `len i` bytes, and none of them is short. -/
structure Fixed (dataWidthBytes : ℕ) (len : Fin numServers → BitVec 8) (i : Fin numServers)
    (c : MemengineCmd) : Prop where
  burstLen : c.burstLen = len i
  even : c.Even dataWidthBytes

instance (len : Fin numServers → BitVec 8) (i : Fin numServers) (c : MemengineCmd) :
    Decidable (Fixed dataWidthBytes len i c) :=
  decidable_of_iff (c.burstLen = len i ∧ c.Even dataWidthBytes)
    ⟨fun h => ⟨h.1, h.2⟩, fun h => ⟨h.burstLen, h.even⟩⟩

variable {k : ℕ} {len : Fin numServers → BitVec 8} {R : Record dataWidth numServers}
  {s s' : MemwriteEngine dataWidth cmdQDepth numServers bufferSizeBeats}
  {H : History dataWidth numServers} {i : Fin numServers} {c : MemengineCmd}

/-! ## Bursts of one length -/

lemma Fixed.grouped (hw : dataWidthBytes = 2 ^ k) (hlen : ∀ i, (len i).toNat / dataWidthBytes ≤ 16)
    (h : Fixed dataWidthBytes len i c) : c.Grouped dataWidthBytes where
  len_pos := h.even.whole.len_pos
  dvd := h.even.dvd
  beats_pos := by
    rw [MemengineCmd.fullBeats_eq hw]
    exact h.even.whole.burstLen.beats_pos
  beats_le := by
    rw [MemengineCmd.fullBeats_eq hw, h.burstLen]
    exact hlen i

/-- The bursts of a server are of its length. -/
lemma Writes.burstLen_eq (h : Writes (Fixed dataWidthBytes len) dataWidthBytes R s H)
    (hc : c ∈ (R.accepted i).flatMap MemengineCmd.bursts) : c.burstLen = len i := by
  obtain ⟨d, hd, hcd⟩ := List.mem_flatMap.mp hc
  rw [MemengineCmd.burstLen_of_mem_bursts (h.grouped i d hd).proper c hcd]
  exact (h.puts i d hd).burstLen

/-- The register of a server holds its length, or nothing of the server is to come. -/
lemma Writes.register_eq (h : Writes (Fixed dataWidthBytes len) dataWidthBytes R s H)
    (i : Fin numServers) :
    len i >>> beatShift dataWidthBytes = s.writeDataFunnel.burstLen i ∨ s.Idle i := by
  by_cases hcome : H.queues i ++ s.loader.waiting i = []
  · by_cases hset : s.writeDataFunnel.Settled i
    · right
      obtain ⟨hq, hwait⟩ := List.append_eq_nil_iff.mp hcome
      refine ⟨hwait, BitVec.eq_of_toNat_eq ?_, hset⟩
      rw [h.keeps.outs1 i, hq]
      simp
    · -- a burst of the server is in the funnel, and the register holds its length
      left
      obtain ⟨b, hb, heq⟩ := List.mem_map.mp (h.carries.exists_call hset)
      rw [Prod.mk.injEq] at heq
      obtain ⟨rfl, hreg⟩ := heq
      refine BitVec.eq_of_toNat_eq ?_
      rw [← hreg, MemengineCmd.fullBeats, h.burstLen_eq (h.mem_bursts hb)]
  · -- a command is to be handed on, and the register holds the length of its bursts
    left
    obtain ⟨c, cs, hcs⟩ := List.exists_cons_of_ne_nil hcome
    have hc : c ∈ H.queues i ++ s.loader.waiting i := by
      rw [hcs]
      exact List.mem_cons_self
    have hup : c ∈ R.upcoming i := by
      rw [h.upcoming_eq i]
      exact List.mem_flatMap.mpr ⟨c, hc, MemengineCmd.self_mem_bursts (h.keeps.proper i c hc)⟩
    refine BitVec.eq_of_toNat_eq ?_
    rw [h.register i c hup, MemengineCmd.fullBeats, h.burstLen_eq (List.mem_of_mem_drop hup)]

/-- **Commands with bursts of one length disturb no burst.** -/
lemma Writes.undisturbed (hw : dataWidthBytes = 2 ^ k)
    (hlen : ∀ i, (len i).toNat / dataWidthBytes ≤ 16)
    (h : Writes (Fixed dataWidthBytes len) dataWidthBytes R s H) {a : Action dataWidth numServers}
    (ha : Puts (Fixed dataWidthBytes len) s a) : Undisturbed dataWidthBytes s a := by
  cases a with
  | put i c =>
    have hfixed : Fixed dataWidthBytes len i c := ha
    refine ⟨hfixed.grouped hw hlen, ?_⟩
    rw [hfixed.burstLen]
    exact h.register_eq i
  | _ => trivial

/-- A whole run, in which the commands of each server have bursts of one length. -/
lemma exists_writes_fixed (hw : dataWidthBytes = 2 ^ k)
    (hlen : ∀ i, (len i).toNat / dataWidthBytes ≤ 16) (hd : 0 < cmdQDepth)
    {buff : BitVec (buffAddrSz numServers cmdQDepth) → MemengineCmd}
    {complBuff : BitVec (buffAddrSz 4 16) → BitVec dataWidth × Bool}
    {tr : List (Event dataWidth numServers)}
    (h : ((memwriteEngine dataWidth dataWidthBytes cmdQDepth numServers bufferSizeBeats).guard
      (Puts (Fixed dataWidthBytes len))).Reaches
        (reset dataWidth cmdQDepth numServers bufferSizeBeats buff complBuff) tr s) :
    ∃ H, Writes (Fixed dataWidthBytes len) dataWidthBytes (recordOf tr) s H := by
  refine h.invariant
    (I := fun tr s => ∃ H, Writes (Fixed dataWidthBytes len) dataWidthBytes (recordOf tr) s H)
    ⟨_, writes_reset hd buff complBuff⟩ ?_
  rintro tr s a s' es ⟨H, ih⟩ hs
  obtain ⟨ha, hs⟩ := RuleSystem.guard_step.mp hs
  rw [recordOf_append]
  exact ih.step ha (ih.undisturbed hw hlen ha) hs

/-! ## What holds of a server -/

section Record

variable (dataWidthBytes : ℕ) (R : Record dataWidth numServers) (i : Fin numServers)

/-- The requests for server `i`. -/
def Record.requestsOf : List ObjectRequest := BurstFunnel.fromInput R.requests i

/-- The beats given to the memory for server `i`, with their places: the memory takes them in the order of
the requests. -/
def Record.storedTo : List ((BitVec 32 × BitVec 40) × BitVec dataWidth) :=
  BurstFunnel.fromInput ((((R.requests.flatMap fun r =>
    (MemreadEngine.places dataWidthBytes r.2).map fun p => (r.1, p)).zip R.written)).map
      fun e => (e.1.1, (e.1.2, e.2.2))) i

/-- The beats of server `i` that a burst has claimed. -/
def Record.claimedBeats : ℕ := ((R.loadsOf i).map fun c => c.bl.toNat / dataWidthBytes).sum

/-- The number of bursts of server `i` that the memory has answered; it answers in the order of the
requests. -/
def Record.donesOf : ℕ := (BurstFunnel.fromInput (R.requests.take R.dones) i).length

end Record

/-- What holds of server `i` at every moment of a run. -/
structure Served (dataWidthBytes : ℕ) (R : Record dataWidth numServers)
    (s : MemwriteEngine dataWidth cmdQDepth numServers bufferSizeBeats) (i : Fin numServers) : Prop where
  /-- The requests are those of the bursts of the commands in turn. -/
  requests : R.requestsOf i <+: (R.accepted i).flatMap fun c => c.bursts.map MemengineCmd.request
  /-- The requests of a command cover it. -/
  tiles : ∀ c ∈ R.accepted i, c.base.toNat + c.len.toNat ≤ 2 ^ 40 →
    MemengineCmd.Tiles c.pointer.toNat c.burstLen.toNat c.base.toNat c.len.toNat
      (c.bursts.map MemengineCmd.request)
  /-- The beats given go to the places of the commands, and are those that came into the buffer. -/
  stores : R.storedTo dataWidthBytes i <+: ((R.accepted i).flatMap fun c =>
    (c.beatsOf dataWidthBytes).map fun b => (b.pointer, b.offset)).zip (R.piped i)
  /-- The credit is what came into the buffer and no burst has claimed. -/
  credit : (s.loader.buffCap i).toNat + R.claimedBeats dataWidthBytes i = (R.piped i).length
  /-- There is one response, given or in `outfs`, for each command whose last burst has been answered. -/
  responses : R.responses i + (s.loader.outfs i).items.length =
    completed ((R.accepted i).map fun c => c.bursts.length) (R.donesOf i)

/-! ## The parts -/

/-- All bursts of a server are full. -/
lemma Writes.fullBeats_eq (hw : dataWidthBytes = 2 ^ k)
    (h : Writes (Fixed dataWidthBytes len) dataWidthBytes R s H)
    (hc : c ∈ (R.accepted i).flatMap MemengineCmd.bursts) :
    c.fullBeats dataWidthBytes = c.bl.toNat / dataWidthBytes := by
  rw [MemengineCmd.fullBeats_eq hw, (h.burst hc).2]

/-- The requests for a server are those of its bursts. -/
lemma Writes.requestsOf_eq (h : Writes (Fixed dataWidthBytes len) dataWidthBytes R s H)
    (i : Fin numServers) : R.requestsOf i = (H.ledger.issued i).map MemengineCmd.request := by
  rw [Record.requestsOf, BurstFunnel.fromInput, h.requests, h.issued i, List.filter_map, List.map_map,
    List.map_map]
  rfl

/-- The bursts requested are the first of those of the commands. -/
lemma Writes.issued_prefix (h : Writes (Fixed dataWidthBytes len) dataWidthBytes R s H)
    (i : Fin numServers) : H.ledger.issued i <+: (R.accepted i).flatMap MemengineCmd.bursts := by
  rw [h.bursts_eq i, h.loadsOf_eq i, List.append_assoc]
  exact List.prefix_append _ _

/-- The credit taken is that for the beats of the bursts. -/
lemma Writes.claimed_eq (hw : dataWidthBytes = 2 ^ k)
    (h : Writes (Fixed dataWidthBytes len) dataWidthBytes R s H) (i : Fin numServers) :
    R.claimed dataWidthBytes i = R.claimedBeats dataWidthBytes i := by
  rw [Record.claimed, Record.claimedBeats]
  congr 1
  refine List.map_congr_left fun c hc => h.fullBeats_eq hw (i := i) ?_
  rw [h.bursts_eq i]
  exact List.mem_append_left _ hc

/-- Beats go into the burst funnel only for bursts that took credit for them. -/
lemma Writes.injected_le (h : Writes (Fixed dataWidthBytes len) dataWidthBytes R s H)
    (i : Fin numServers) :
    (BurstFunnel.fromInput R.injected i).length ≤ R.claimed dataWidthBytes i := by
  have hle := length_fromInput_deal_le (BurstFunnel.fromInput (R.log dataWidthBytes).entered)
    (R.log dataWidthBytes).calls i
  have hcalls : BurstFunnel.fromInput (R.log dataWidthBytes).calls i =
      (R.loadsOf i).map (MemengineCmd.fullBeats dataWidthBytes) := by
    rw [BurstFunnel.fromInput, Record.log, Record.loadsOf, List.filter_map, List.map_map, List.map_map]
    rfl
  rw [h.carries.deal_entered, hcalls] at hle
  exact hle

/-- The credit fits its counter: it is for beats in the buffer. -/
lemma Writes.buffCap_eq (hb : bufferSizeBeats < 2 ^ 16)
    (h : Writes (Fixed dataWidthBytes len) dataWidthBytes R s H) (i : Fin numServers) :
    (s.loader.buffCap i).toNat = H.ledger.credit i := by
  have hcredit := h.credit i
  have hpiped := congrArg List.length (h.piped i)
  have hinjected := h.injected_le i
  have hroom := (s.writeDataBuffs i).length_le
  rw [List.length_append] at hpiped
  rw [h.keeps.credit i, BitVec.toNat_ofNat, Nat.mod_eq_of_lt (by omega)]

/-- The answers to bursts of a server, and the commands that they complete. -/
lemma Writes.finished_eq (h : Writes (Fixed dataWidthBytes len) dataWidthBytes R s H)
    (i : Fin numServers) :
    H.ledger.finished i =
      completed ((R.accepted i).map fun c => c.bursts.length) (R.donesOf i) := by
  have hacked : BurstFunnel.fromInput H.acked i <+: (R.accepted i).flatMap MemengineCmd.bursts := by
    refine List.IsPrefix.trans ?_ (h.issued_prefix i)
    rw [h.issued i, History.requested, ← BurstFunnel.fromInput, BurstFunnel.fromInput_append]
    exact List.prefix_append _ _
  have hdones : R.donesOf i = (BurstFunnel.fromInput H.acked i).length := by
    rw [Record.donesOf, h.requests, h.dones, History.requested, List.map_append,
      List.take_left' (List.length_map _), BurstFunnel.fromInput, BurstFunnel.fromInput,
      List.filter_map, List.map_map, List.length_map, List.length_map]
    rfl
  rw [h.finished i, hdones,
    ← countP_take_flatMap fun c hc => MemengineCmd.bursts_eq_concat (h.grouped i c hc).proper,
    ← List.prefix_iff_eq_take.mp hacked, BurstFunnel.fromInput, List.countP_map, List.countP_filter]
  refine List.countP_congr fun b _ => ?_
  simp [and_comm]

/-- The beats of a request for a burst are as many as the burst has. -/
lemma length_places (c : MemengineCmd) :
    (MemreadEngine.places dataWidthBytes c.request).length = c.bl.toNat / dataWidthBytes := by
  rw [MemreadEngine.places, List.length_map, List.length_range, MemengineCmd.request]

/-- The places of the requests for a server are the first of those of its commands. -/
lemma Writes.places_prefix (h : Writes (Fixed dataWidthBytes len) dataWidthBytes R s H)
    (i : Fin numServers) :
    (R.requestsOf i).flatMap (MemreadEngine.places dataWidthBytes) <+: (R.accepted i).flatMap fun c =>
      (c.beatsOf dataWidthBytes).map fun b => (b.pointer, b.offset) := by
  have hplaces : ∀ c : MemengineCmd, MemreadEngine.places dataWidthBytes c.request =
      (c.beatsOfBurst dataWidthBytes).map fun b => (b.pointer, b.offset) := by
    intro c
    rw [MemreadEngine.places, MemengineCmd.beatsOfBurst, MemengineCmd.beatsFrom, List.map_map]
    rfl
  obtain ⟨rest, hrest⟩ := h.issued_prefix i
  refine ⟨rest.flatMap fun c => MemreadEngine.places dataWidthBytes c.request, ?_⟩
  rw [h.requestsOf_eq i, List.flatMap_map, ← List.flatMap_append, hrest, List.flatMap_assoc]
  refine List.flatMap_congr fun c hc => ?_
  simp only [hplaces]
  rw [← List.map_flatMap, MemengineCmd.flatMap_beatsOfBurst (h.puts i c hc).even.whole]

/-- The beats requested are in the buffers, or were. -/
lemma Writes.sum_places_le (hw : dataWidthBytes = 2 ^ k)
    (h : Writes (Fixed dataWidthBytes len) dataWidthBytes R s H) (i : Fin numServers) :
    ((R.requestsOf i).map fun r => (MemreadEngine.places dataWidthBytes r).length).sum ≤
      (R.piped i).length := by
  have hcredit := h.credit i
  have hclaimed := h.claimed_eq hw i
  rw [Record.claimedBeats, h.loadsOf_eq i, List.map_append, List.sum_append] at hclaimed
  rw [h.requestsOf_eq i, List.map_map]
  simp only [Function.comp_def, length_places]
  omega

/-- The beats given, with their places. -/
lemma Writes.storedTo_prefix (hw : dataWidthBytes = 2 ^ k)
    (h : Writes (Fixed dataWidthBytes len) dataWidthBytes R s H) (i : Fin numServers) :
    R.storedTo dataWidthBytes i <+: ((R.accepted i).flatMap fun c =>
      (c.beatsOf dataWidthBytes).map fun b => (b.pointer, b.offset)).zip (R.piped i) := by
  have hbeats : ∀ r : ObjectRequest,
      beats dataWidthBytes r = (MemreadEngine.places dataWidthBytes r).length := by
    intro r
    rw [beats, WholeBurst.shift_toNat hw, MemreadEngine.places, List.length_map, List.length_range]
    rfl
  have hdata := h.written_of.data
  simp only [hbeats] at hdata
  have hdeal : BurstFunnel.fromInput ((((R.requests.flatMap fun r =>
      (MemreadEngine.places dataWidthBytes r.2).map fun p => (r.1, p)).zip
        (deal R.piped (R.requests.map fun r =>
          (r.1, (MemreadEngine.places dataWidthBytes r.2).length))))).map
            fun e => (e.1.1, (e.1.2, e.2.2))) i =
      ((R.requestsOf i).flatMap (MemreadEngine.places dataWidthBytes)).zip (R.piped i) :=
    fromInput_zip_deal (fun i => h.sum_places_le hw i) i
  refine List.IsPrefix.trans ?_ (zip_prefix_zip (h.places_prefix i) (List.prefix_refl _))
  rw [← hdeal, Record.storedTo, BurstFunnel.fromInput, BurstFunnel.fromInput]
  exact (((zip_prefix_zip (List.prefix_refl _) hdata).map _).filter _).map _

/-- **What holds of every server of an engine that agrees with its past.** -/
theorem Writes.served (hw : dataWidthBytes = 2 ^ k) (hb : bufferSizeBeats < 2 ^ 16)
    (h : Writes (Fixed dataWidthBytes len) dataWidthBytes R s H) (i : Fin numServers) :
    Served dataWidthBytes R s i where
  requests := h.written_of.requests i
  tiles c hc hspace := MemengineCmd.tiles_bursts (h.grouped i c hc).proper hspace
  stores := h.storedTo_prefix hw i
  credit := by
    rw [h.buffCap_eq hb i, ← h.claimed_eq hw i]
    exact h.credit i
  responses := by
    rw [← h.finished_eq i, ← h.answered]
    exact h.keeps.outfs i

end MemwriteEngine

open MemwriteEngine

/-- **The write engine, where no burst is short.** If a beat is a power of two bytes wide and the length of
every command is a multiple of that of the bursts of its server, of 1 to 16 beats, then for every server
the requests cover the commands, each gets its own beats, the credit is what came in and no burst has
claimed, and there is one response for each command whose last burst has been answered; and the beats of
different servers are not mixed up.

**Proof sketch.** The register of a server holds its length as soon as it matters (`Writes.register_eq`),
so a command put disturbs no burst and the run is one of `Writes`. No burst is short, so the credit taken
for a burst is the number of its beats. -/
theorem memwrite_served {dataWidth dataWidthBytes cmdQDepth numServers bufferSizeBeats k : ℕ}
    (hw : dataWidthBytes = 2 ^ k) (hd : 0 < cmdQDepth) (hb : bufferSizeBeats < 2 ^ 16)
    {len : Fin numServers → BitVec 8} (hlen : ∀ i, (len i).toNat / dataWidthBytes ≤ 16)
    (buff : BitVec (buffAddrSz numServers cmdQDepth) → MemengineCmd)
    (complBuff : BitVec (buffAddrSz 4 16) → BitVec dataWidth × Bool)
    {tr : List (MemwriteEngine.Event dataWidth numServers)}
    {s : MemwriteEngine dataWidth cmdQDepth numServers bufferSizeBeats}
    (h : ((memwriteEngine dataWidth dataWidthBytes cmdQDepth numServers bufferSizeBeats).guard
      (Puts (Fixed dataWidthBytes len))).Reaches
        (reset dataWidth cmdQDepth numServers bufferSizeBeats buff complBuff) tr s) :
    (∀ i, Served dataWidthBytes (recordOf tr) s i) ∧ Written dataWidthBytes (recordOf tr) := by
  obtain ⟨H, hH⟩ := exists_writes_fixed hw hlen hd h
  exact ⟨hH.served hw hb, hH.written_of⟩

/-- Two commands of two bursts of two beats, on two servers; two bursts have been given and the first has
been answered. -/
def fullBursts :=
  ((memwriteEngine 32 4 2 2 8).guard (Puts (Fixed 4 fun _ => 8))).run
    (reset 32 2 2 8 (fun _ => ⟨0, 0, 0, 0⟩) fun _ => (0, false))
    [.put 0 ⟨5, 0x100, 8, 16⟩, .moveCmd (1, 0), .storeCmd, .put 1 ⟨6, 0x300, 8, 8⟩, .moveCmd (1, 1),
      .storeCmd, .pipe 0 1, .pipe 0 2, .pipe 0 3, .pipe 1 8, .pipe 1 9, .loadCtxtA, .loadCtxtB, .loadCtxtC,
      .writeReq, .loadCtxtA, .loadCtxtB, .loadCtxtC, .writeReq, .inject 0, .inject 0, .moveData (1, 0),
      .drainFunnel, .moveData (1, 0), .drainFunnel, .drainReq, .drainResp, .drainReq, .drainResp,
      .inject 1, .inject 1, .moveData (1, 1), .drainFunnel, .moveData (1, 1), .drainFunnel, .writeData,
      .writeData, .drainReq, .drainResp, .writeData, .writeDone]

/-- Both servers are served. -/
theorem memwrite_served_fullBursts :
    ((recordOf fullBursts.2).storedTo 4 0 = [((5, 0x100), 1), ((5, 0x104), 2)] ∧
      (recordOf fullBursts.2).storedTo 4 1 = [((6, 0x300), 8)]) ∧
      (∀ i, Served 4 (recordOf fullBursts.2) fullBursts.1 i) ∧ Written 4 (recordOf fullBursts.2) := by
  have hreach : ((memwriteEngine 32 4 2 2 8).guard (Puts (Fixed 4 fun _ => 8))).Reaches
      (reset 32 2 2 8 (fun _ => ⟨0, 0, 0, 0⟩) fun _ => (0, false)) fullBursts.2 fullBursts.1 :=
    RuleSystem.reaches_run _ _
  exact ⟨by decide +kernel,
    memwrite_served (k := 2) rfl (by decide) (by decide) (by decide) _ _ hreach⟩

/-- Server 0 is given a command of one beat with bursts of two, and the first beat of its next command is
there; server 1 is given a burst of one beat. -/
def shortWrite :=
  ((memwriteEngine 32 4 2 2 4).guard
      (Puts fun i c => c.burstLen = (if i = 0 then 8 else 4) ∧ c.Whole 4)).run
    (reset 32 2 2 4 (fun _ => ⟨0, 0, 0, 0⟩) fun _ => (0, false))
    [.put 0 ⟨5, 0x100, 8, 4⟩, .moveCmd (1, 0), .storeCmd, .put 1 ⟨6, 0x300, 4, 4⟩, .moveCmd (1, 1),
      .storeCmd, .pipe 0 1, .pipe 0 2, .pipe 1 9, .loadCtxtA, .loadCtxtB, .loadCtxtC, .writeReq,
      .loadCtxtA, .loadCtxtB, .loadCtxtC, .writeReq, .inject 0, .inject 0, .moveData (1, 0), .drainFunnel,
      .moveData (1, 0), .drainFunnel, .drainReq, .drainResp, .writeData, .drainReq, .drainResp, .writeData]

/-- The short burst has claimed the beat of the next command, which goes to the burst of server 1. -/
theorem not_served_shortWrite :
    ((memwriteEngine 32 4 2 2 4).guard
        (Puts fun i c => c.burstLen = (if i = 0 then 8 else 4) ∧ c.Whole 4)).Reaches
        (reset 32 2 2 4 (fun _ => ⟨0, 0, 0, 0⟩) fun _ => (0, false)) shortWrite.2 shortWrite.1 ∧
      ((shortWrite.1.loader.buffCap 0).toNat = 0 ∧
        (recordOf shortWrite.2).claimedBeats 4 0 = 1 ∧ (recordOf shortWrite.2).piped 0 = [1, 2] ∧
        (recordOf shortWrite.2).oo = [(1, 0)]) ∧
      ¬ ((∀ i, Served 4 (recordOf shortWrite.2) shortWrite.1 i) ∧ Written 4 (recordOf shortWrite.2)) := by
  have hrun : (shortWrite.1.loader.buffCap 0).toNat = 0 ∧
      (recordOf shortWrite.2).claimedBeats 4 0 = 1 ∧ (recordOf shortWrite.2).piped 0 = [1, 2] ∧
      (recordOf shortWrite.2).oo = [(1, 0)] := by decide +kernel
  refine ⟨RuleSystem.reaches_run _ _, hrun, fun h => ?_⟩
  have hcredit := (h.1 0).credit
  rw [hrun.1, hrun.2.1, hrun.2.2.1] at hcredit
  simp at hcredit

end Xbsv
