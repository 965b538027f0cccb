import Mathlib.Algebra.Order.BigOperators.Group.List
import Mathlib.Algebra.Order.Group.Nat
import Mathlib.Data.Prod.Lex
import Xbsv.Engine.BurstOrder
import Xbsv.Engine.LoaderProgress
import Xbsv.Engine.WriteCredits

set_option relaxedAutoImplicit false
set_option autoImplicit false

/-!
# Commands of one beat, one at a time

A write engine with one server that takes one command at a time, each of one beat. A command is in one place at a time:
in the funnel, in its queue, handed on, requested, given or answered. As long as one is on its way and its beat has
come, some rule of the engine or some step of the memory leads on.

## Main definitions

* `Xbsv.MemengineCmd.Single` — a command of one beat.
* `Xbsv.MemwriteEngine.Tally` — how many commands and beats there are where.
* `Xbsv.MemwriteEngine.Gains` — a step leads on.

## Main results

* `Xbsv.MemwriteEngine.Writes.tally` — the numbers agree.
* `Xbsv.MemwriteEngine.Writes.exists_gain` — a command whose beat has come gets on.
-/

namespace Xbsv

open Rules

namespace BurstFunnel

variable {k w : ℕ} {L : Log k w} {s : BurstFunnel k w} {V : Flights k w}

/-- When no call waits, all elements have entered. -/
lemma Carries.length_entered (h : Carries L s V) (hload : s.loadIdxs.items = []) :
    L.entered.length = (L.calls.map Prod.snd).sum := by
  obtain ⟨cur, hcur, hinj⟩ := h.loadIdxs
  obtain ⟨rfl, hwait⟩ := List.append_eq_nil_iff.mp (hcur.symm.trans hload)
  have hfull : ∀ b ∈ V.flying, b.Full := by
    rcases Nat.eq_zero_or_pos s.injCtrl.toNat with h0 | h0
    · rw [h0] at hinj
      exact hinj.of_zero.2
    · obtain ⟨G, b, -, hnil, -, -⟩ := hinj.of_pos h0
      cases hnil
  have hlen : ∀ b ∈ V.past ++ V.flying, b.entries.length = b.len := by
    intro b hb
    rw [Burst.entries, List.length_map, List.length_append]
    rcases List.mem_append.mp hb with hb | hb
    · rw [(h.past b hb).1, (h.past b hb).2, List.length_nil, Nat.add_zero]
    · exact hfull b hb
  rw [h.entered, h.calls, List.map_eq_nil_iff.mp hwait, List.append_nil, List.length_flatMap, List.map_congr_left hlen,
    List.map_map]
  rfl

/-- With bursts of one element, the calls that wait are those whose elements have not entered. -/
lemma Carries.length_loadIdxs (h : Carries L s V) (hone : ∀ c ∈ L.calls, c.2 = 1) :
    s.loadIdxs.items.length + L.entered.length ≤ L.calls.length + 1 := by
  obtain ⟨cur, hcur, hinj⟩ := h.loadIdxs
  have hle : cur.length ≤ 1 := by
    rcases Nat.eq_zero_or_pos s.injCtrl.toNat with h0 | h0
    · rw [h0] at hinj
      rw [hinj.of_zero.1]
      exact Nat.zero_le 1
    · obtain ⟨G, b, -, rfl, -, -⟩ := hinj.of_pos h0
      exact Nat.le_refl 1
  have hentries : ∀ b ∈ V.past ++ V.flying, b.entries.length ≤ 1 := by
    intro b hb
    have hlen : b.len = 1 := by
      refine hone b.call ?_
      rw [h.calls]
      exact List.mem_map_of_mem (List.mem_append_left _ hb)
    rw [Burst.entries, List.length_map, List.length_append, ← hlen]
    rcases List.mem_append.mp hb with hb | hb
    · rw [(h.past b hb).1, (h.past b hb).2, List.length_nil, Nat.add_zero]
    · exact hinj.le b hb
  have hentered : L.entered.length ≤ (V.past ++ V.flying).length := by
    calc L.entered.length = ((V.past ++ V.flying).map fun b => b.entries.length).sum := by
          rw [h.entered, List.length_flatMap]
      _ ≤ ((V.past ++ V.flying).map fun _ => 1).sum := List.sum_le_sum hentries
      _ = (V.past ++ V.flying).length := by rw [List.map_const', List.sum_replicate_nat, Nat.mul_one]
  rw [hcur, h.calls, List.length_append, List.length_map, List.length_map, List.length_append]
  omega

end BurstFunnel

namespace MemengineCmd

/-- The command is one beat. -/
structure Single (dataWidthBytes : ℕ) (c : MemengineCmd) : Prop where
  burstLen : c.burstLen.toNat = dataWidthBytes
  len : c.len.toNat = dataWidthBytes

section Single

variable {dataWidthBytes k : ℕ} {c : MemengineCmd}

lemma Single.isLast (h : c.Single dataWidthBytes) : c.isLast = true := by
  rw [isLast_iff, h.burstLen, h.len]

/-- It is its only burst. -/
lemma Single.bursts (h : c.Single dataWidthBytes) : c.bursts = [c] := bursts_of_isLast h.isLast

lemma Single.bl (h : c.Single dataWidthBytes) : c.bl.toNat = dataWidthBytes := by
  rw [bl_toNat, h.burstLen, h.len, Nat.min_self]

lemma Single.even (hw : dataWidthBytes = 2 ^ k) (h : c.Single dataWidthBytes) : c.Even dataWidthBytes := by
  have hpos : 0 < dataWidthBytes := hw ▸ Nat.two_pow_pos k
  refine ⟨⟨⟨?_, ?_⟩, ?_, ?_⟩, ?_⟩
  · rwa [h.burstLen]
  · rw [h.burstLen]
  · rwa [h.len]
  · rw [h.len]
  · rw [h.burstLen, h.len]

lemma Single.fullBeats (hw : dataWidthBytes = 2 ^ k) (h : c.Single dataWidthBytes) :
    c.fullBeats dataWidthBytes = 1 := by
  rw [fullBeats_eq hw, h.burstLen]
  exact Nat.div_self (hw ▸ Nat.two_pow_pos k)

/-- The place of its beat. -/
lemma Single.places (hw : dataWidthBytes = 2 ^ k) (h : c.Single dataWidthBytes) :
    ((c.beatsOf dataWidthBytes).map fun b => (b.pointer, b.offset)) = [(c.pointer, c.base)] := by
  rw [beatsOf, h.len, Nat.div_self (hw ▸ Nat.two_pow_pos k)]
  simp [beatsFrom]

/-- Its request. -/
lemma Single.request (h : c.Single dataWidthBytes) :
    c.request = ⟨c.pointer, c.base, BitVec.ofNat 8 dataWidthBytes, 0⟩ := by
  have hlt := c.bl.isLt
  rw [MemengineCmd.request, ← h.bl, BitVec.ofNat_toNat, BitVec.setWidth_eq]

end Single

end MemengineCmd

namespace MemwriteEngine

variable {dataWidth dataWidthBytes cmdQDepth numServers bufferSizeBeats k : ℕ}

/-- Another condition for the commands put. -/
lemma Writes.mono {P Q : Fin numServers → MemengineCmd → Prop} {R : Record dataWidth numServers}
    {s : MemwriteEngine dataWidth cmdQDepth numServers bufferSizeBeats} {H : History dataWidth numServers}
    (hpq : ∀ i c, P i c → Q i c) (h : Writes P dataWidthBytes R s H) : Writes Q dataWidthBytes R s H :=
  { h with puts := fun i c hc => hpq i c (h.puts i c hc) }

/-- Commands of one beat have bursts of one length. -/
lemma fixed_of_single (hw : dataWidthBytes = 2 ^ k) (i : Fin numServers) (c : MemengineCmd)
    (h : c.Single dataWidthBytes) : Fixed dataWidthBytes (fun _ => BitVec.ofNat 8 dataWidthBytes) i c := by
  refine ⟨?_, h.even hw⟩
  rw [← h.burstLen, BitVec.ofNat_toNat, BitVec.setWidth_eq]

/-- A step with commands of one beat. -/
lemma Writes.step_single (hw : dataWidthBytes = 2 ^ k) {R : Record dataWidth numServers}
    {s s' : MemwriteEngine dataWidth cmdQDepth numServers bufferSizeBeats} {H : History dataWidth numServers}
    (h : Writes (fun _ => MemengineCmd.Single dataWidthBytes) dataWidthBytes R s H) {a : Action dataWidth numServers}
    (ha : Puts (fun _ => MemengineCmd.Single dataWidthBytes) s a) {es : List (Event dataWidth numServers)}
    (hs : (memwriteEngine dataWidth dataWidthBytes cmdQDepth numServers bufferSizeBeats).step s a = some (s', es)) :
    ∃ H', Writes (fun _ => MemengineCmd.Single dataWidthBytes) dataWidthBytes (es.foldl Record.add R) s' H' := by
  have hpos : 0 < dataWidthBytes := hw ▸ Nat.two_pow_pos k
  have hfixed : Puts (Fixed dataWidthBytes fun _ => BitVec.ofNat 8 dataWidthBytes) s a := by
    cases a with
    | put i c => exact fixed_of_single hw i c ha
    | _ => trivial
  refine h.step ha ((h.mono (fixed_of_single hw)).undisturbed hw (fun _ => ?_) hfixed) hs
  rw [BitVec.toNat_ofNat]
  calc dataWidthBytes % 2 ^ 8 / dataWidthBytes ≤ dataWidthBytes / dataWidthBytes :=
        Nat.div_le_div_right (Nat.mod_le _ _)
    _ = 1 := Nat.div_self hpos
    _ ≤ 16 := by decide

/-! ## How many there are -/

section Tally

variable {R : Record dataWidth 1} {s s' : MemwriteEngine dataWidth 1 1 bufferSizeBeats} {H : History dataWidth 1}

/-- There is one server. -/
lemma filter_server {α : Type} (l : List (Fin 1 × α)) (i : Fin 1) : (l.filter fun b => b.1 = i) = l :=
  List.filter_eq_self.mpr fun b _ => decide_eq_true (Subsingleton.elim b.1 i)

lemma fromInput_server {α : Type} (l : List (Fin 1 × α)) (i : Fin 1) : BurstFunnel.fromInput l i = l.map Prod.snd := by
  rw [BurstFunnel.fromInput, filter_server]

/-- **How many commands and beats there are where.** -/
structure Tally (R : Record dataWidth 1) (s : MemwriteEngine dataWidth 1 1 bufferSizeBeats)
    (H : History dataWidth 1) : Prop where
  accepted : (R.accepted 0).length = R.loads.length + (H.queues 0).length + (s.loader.waiting 0).length
  loads : R.loads.length = R.requests.length + s.loader.loadfC.items.length
  requests : R.requests.length = H.acked.length + H.closed.length + H.opened.length
  written : R.written.length = H.acked.length + H.closed.length
  dones : R.dones = H.acked.length
  responses : R.responses 0 + (s.loader.outfs 0).items.length = H.acked.length
  outs0 : (s.loader.outs0 0).toNat + R.responses 0 = (R.accepted 0).length
  outs0_le : (s.loader.outs0 0).toNat ≤ 1
  piped : (R.piped 0).length = R.injected.length + (s.writeDataBuffs 0).items.length
  credit : H.ledger.credit 0 + R.loads.length = (R.piped 0).length
  written_le : R.written.length ≤ R.injected.length
  injected_le : R.injected.length ≤ R.loads.length

/-- The commands put. -/
abbrev Singles (dataWidthBytes : ℕ) (R : Record dataWidth 1) (s : MemwriteEngine dataWidth 1 1 bufferSizeBeats)
    (H : History dataWidth 1) : Prop := Writes (fun _ => MemengineCmd.Single dataWidthBytes) dataWidthBytes R s H

lemma flatMap_bursts {cs : List MemengineCmd} (h : ∀ c ∈ cs, c.Single dataWidthBytes) :
    cs.flatMap MemengineCmd.bursts = cs := by
  rw [List.flatMap_congr fun c hc => (h c hc).bursts, List.flatMap_singleton']

/-- All bursts are of one beat. -/
lemma Writes.single_of_mem_loads (h : Singles dataWidthBytes R s H) {b : Fin 1 × MemengineCmd} (hb : b ∈ R.loads) :
    b.2.Single dataWidthBytes := by
  have hmem := h.mem_bursts hb
  rw [flatMap_bursts (h.puts b.1)] at hmem
  exact h.puts b.1 b.2 hmem

lemma Writes.single_of_mem_queues (h : Singles dataWidthBytes R s H) {c : MemengineCmd}
    (hc : c ∈ H.queues 0 ++ s.loader.waiting 0) : c.Single dataWidthBytes := by
  refine h.puts 0 c ?_
  rw [← flatMap_bursts (h.puts 0), h.bursts_eq 0]
  exact List.mem_append_right _ (List.mem_flatMap.mpr ⟨c, hc, MemengineCmd.self_mem_bursts (h.keeps.proper 0 c hc)⟩)

lemma Writes.sum_fullBeats (hw : dataWidthBytes = 2 ^ k) (h : Singles dataWidthBytes R s H)
    {l : List (Fin 1 × MemengineCmd)} (hl : ∀ b ∈ l, b ∈ R.loads) :
    (l.map fun b => b.2.fullBeats dataWidthBytes).sum = l.length := by
  rw [List.map_congr_left fun b hb => (h.single_of_mem_loads (hl b hb)).fullBeats hw, List.map_const',
    List.sum_replicate_nat, Nat.mul_one]

/-- **The numbers agree.** -/
theorem Writes.tally (hw : dataWidthBytes = 2 ^ k) (h : Singles dataWidthBytes R s H) : Tally R s H := by
  have hmem : ∀ b ∈ H.requested, b ∈ R.loads := fun b hb => by
    rw [h.loads]
    exact List.mem_append_left _ hb
  have hacked : ∀ b ∈ H.acked ++ H.closed, b ∈ R.loads := fun b hb => hmem b (by
    rw [History.requested, ← List.append_assoc]
    exact List.mem_append_left _ hb)
  have hrequests : R.requests.length = H.acked.length + H.closed.length + H.opened.length := by
    rw [h.requests, List.length_map, History.requested, List.length_append, List.length_append, Nat.add_assoc]
  have hresp : s.respCnt.toNat = 0 := by
    cases hopen : H.opened with
    | nil => exact h.respCnt_zero hopen
    | cons b bs =>
      have hb : b ∈ R.loads := hmem b (by simp [History.requested, hopen])
      have hlt := h.respCnt_lt b (by simp [hopen])
      rwa [(h.single_of_mem_loads hb).fullBeats hw, Nat.lt_one_iff] at hlt
  have hclaimed : R.claimed dataWidthBytes 0 = R.loads.length := by
    rw [Record.claimed, Record.loadsOf, filter_server, List.map_map]
    exact h.sum_fullBeats hw fun b hb => hb
  have hfinished : H.ledger.finished 0 = H.acked.length := by
    rw [h.finished, List.countP_eq_length]
    intro b hb
    exact decide_eq_true ⟨Subsingleton.elim _ _,
      (h.single_of_mem_loads (hacked b (List.mem_append_left _ hb))).isLast⟩
  have hpiped := congrArg List.length (h.piped 0)
  have hinjected := (h.mono (fixed_of_single hw)).injected_le 0
  rw [fromInput_server, List.length_append, List.length_map] at hpiped
  rw [fromInput_server, List.length_map] at hinjected
  refine ⟨?_, ?_, hrequests, ?_, h.dones, ?_, ?_, h.keeps.outs0_le 0, hpiped, ?_, ?_, ?_⟩
  · have hflow := congrArg List.length (h.bursts_eq 0)
    rwa [flatMap_bursts (h.puts 0), flatMap_bursts fun c hc => h.single_of_mem_queues hc, Record.loadsOf,
      filter_server, List.length_append, List.length_append, List.length_map, ← Nat.add_assoc] at hflow
  · rw [h.loads, List.length_append, h.requests, List.length_map]
  · rw [h.written, h.sum_fullBeats hw hacked, hresp, List.length_append, Nat.add_zero]
  · rw [← hfinished, ← h.answered]
    exact h.keeps.outfs 0
  · rw [← h.answered, ← h.accepted]
    exact h.keeps.outs0 0
  · rw [← hclaimed]
    exact h.credit 0
  · exact h.carries.left_prefix_entered.length_le
  · rw [← hclaimed]
    exact hinjected

/-- Each word given has its place. -/
lemma Writes.length_storedTo (hw : dataWidthBytes = 2 ^ k) (h : Singles dataWidthBytes R s H) :
    (R.storedTo dataWidthBytes 0).length = R.written.length := by
  have hplaces : ∀ r ∈ R.requests, ((MemreadEngine.places dataWidthBytes r.2).map fun p => (r.1, p)).length = 1 := by
    intro r hr
    rw [h.requests] at hr
    obtain ⟨b, hb, rfl⟩ := List.mem_map.mp hr
    have hmem : b ∈ R.loads := by
      rw [h.loads]
      exact List.mem_append_left _ hb
    rw [List.length_map, length_places, (h.single_of_mem_loads hmem).bl]
    exact Nat.div_self (hw ▸ Nat.two_pow_pos k)
  have ht := h.tally hw
  have hle : R.written.length ≤ R.requests.length := by
    have hwritten := ht.written
    have hrequests := ht.requests
    omega
  rw [Record.storedTo, fromInput_server, List.length_map, List.length_map, List.length_zip, List.length_flatMap,
    List.map_congr_left hplaces, List.map_const', List.sum_replicate_nat, Nat.mul_one, Nat.min_eq_right hle]

end Tally

/-! ## Steps -/

/-- The methods that are called by the client; the others are rules and steps of the memory. -/
def Action.byClient : Action dataWidth numServers → Bool
  | .put _ _ | .get _ | .pipe _ _ => true
  | _ => false

/-- The others take no command and no beat, and give no response. -/
lemma fields_of_inner {R : Record dataWidth numServers}
    {s s' : MemwriteEngine dataWidth cmdQDepth numServers bufferSizeBeats} {a : Action dataWidth numServers}
    {es : List (Event dataWidth numServers)} (ha : a.byClient = false)
    (hs : (memwriteEngine dataWidth dataWidthBytes cmdQDepth numServers bufferSizeBeats).step s a = some (s', es)) :
    (es.foldl Record.add R).accepted = R.accepted ∧ (es.foldl Record.add R).piped = R.piped ∧
      (es.foldl Record.add R).responses = R.responses := by
  cases a with
  | put i c | get i | pipe i v => cases ha
  | moveCmd n | loadCtxtA | loadCtxtB | moveData n | drainFunnel | drainReq | drainResp | writeDone =>
    simp only [memwriteEngine, bind, pure, Option.bind_eq_some_iff, Option.some.injEq, Prod.mk.injEq] at hs
    obtain ⟨_, -, -, rfl⟩ := hs
    exact ⟨rfl, rfl, rfl⟩
  | storeCmd | inject i =>
    simp only [memwriteEngine, bind, pure, Option.bind_eq_some_iff, Prod.exists, Option.some.injEq,
      Prod.mk.injEq] at hs
    obtain ⟨_, _, -, -, rfl⟩ := hs
    exact ⟨rfl, rfl, rfl⟩
  | writeReq =>
    simp only [memwriteEngine, bind, pure, Option.bind_eq_some_iff, Prod.exists, Option.some.injEq,
      Prod.mk.injEq] at hs
    obtain ⟨_, _, _, -, -, rfl⟩ := hs
    exact ⟨rfl, rfl, rfl⟩
  | loadCtxtC =>
    simp only [memwriteEngine, bind, pure, Option.bind_eq_some_iff, Prod.exists, Option.some.injEq,
      Prod.mk.injEq] at hs
    obtain ⟨burst, _, -, -, rfl⟩ := hs
    cases burst <;> exact ⟨rfl, rfl, rfl⟩
  | writeData =>
    simp only [memwriteEngine, bind, pure, Option.bind_eq_some_iff, Prod.exists, Option.some.injEq,
      Prod.mk.injEq] at hs
    obtain ⟨i, j, v, _, -, -, rfl⟩ := hs
    split <;> exact ⟨rfl, rfl, rfl⟩

section Progress

variable {R : Record dataWidth 1} {s s' : MemwriteEngine dataWidth 1 1 bufferSizeBeats} {H : History dataWidth 1}

/-- How much has happened. -/
def Record.size (R : Record dataWidth 1) : ℕ :=
  (R.accepted 0).length + R.loads.length + R.requests.length + (R.piped 0).length + R.injected.length +
    R.written.length + R.dones + R.responses 0

lemma Record.size_add {e : Event dataWidth 1} (he : ∀ i j, e ≠ .burstsOo i j) : (R.add e).size = R.size + 1 := by
  cases e with
  | accepted i c | piped i v | response i =>
    obtain rfl : i = 0 := Subsingleton.elim _ _
    simp only [Record.add, size, Function.update_self, List.length_append, List.length_singleton]
    omega
  | loaded i c | request i r | injected i v | written i v =>
    simp only [Record.add, size, List.length_append, List.length_singleton]
    omega
  | done =>
    simp only [Record.add, size]
    omega
  | burstsOo i j => exact absurd rfl (he i j)

/-- There is no more to happen than the commands and the beats allow. -/
lemma Tally.size_le (ht : Tally R s H) : R.size ≤ 6 * (R.accepted 0).length + 2 * (R.piped 0).length := by
  obtain ⟨haccepted, hloads, hrequests, hwritten, hdones, hresponses, -, -, hpiped, -, -, -⟩ := ht
  rw [Record.size]
  omega

/-- How far the commands and beats inside have to go. -/
def moves (s : MemwriteEngine dataWidth 1 1 bufferSizeBeats) : ℕ :=
  s.writeDataFunnel.load + s.loader.cmdsIn.weight (Loader.cmdNodes 1) fun n => n.1 + 1

/-- A step leads on: something happens, or something inside comes nearer to that. -/
def Gains (R : Record dataWidth 1) (s s' : MemwriteEngine dataWidth 1 1 bufferSizeBeats)
    (es : List (Event dataWidth 1)) : Prop :=
  R.size < (es.foldl Record.add R).size ∨
    es = [] ∧ toLex (s'.moves, s'.loader.rank) < toLex (s.moves, s.loader.rank)

lemma gains_event {e : Event dataWidth 1} (he : ∀ i j, e ≠ .burstsOo i j) : Gains R s s' [e] :=
  .inl (Nat.lt_of_succ_le (Record.size_add he).ge)

lemma gains_moves (hlt : s'.moves < s.moves) : Gains R s s' [] :=
  .inr ⟨rfl, Prod.Lex.toLex_lt_toLex.mpr (.inl hlt)⟩

/-- The loader gets on. -/
lemma gains_loader {l : Loader 1 1} (hlt : l.rank < s.loader.rank) (hcmds : l.cmdsIn = s.loader.cmdsIn) :
    Gains R s { s with loader := l } [] := by
  refine .inr ⟨rfl, Prod.Lex.toLex_lt_toLex.mpr (.inr ⟨?_, hlt⟩)⟩
  show s.writeDataFunnel.load + l.cmdsIn.weight _ _ = _
  rw [hcmds]
  rfl

/-- A step of the engine that leads on. -/
def LeadsOn (dataWidthBytes : ℕ) (R : Record dataWidth 1) (s : MemwriteEngine dataWidth 1 1 bufferSizeBeats) : Prop :=
  ∃ a s' es, Action.byClient a = false ∧
    (memwriteEngine dataWidth dataWidthBytes 1 1 bufferSizeBeats).step s a = some (s', es) ∧ Gains R s s' es

/-- A burst is answered. -/
lemma leadsOn_writeDone (hdonef : s.donef.items ≠ []) (hout : (s.loader.outfs 0).items = []) :
    LeadsOn dataWidthBytes R s := by
  obtain ⟨⟨i, last⟩, xs, hx⟩ := List.exists_cons_of_ne_nil hdonef
  obtain ⟨donef, hdeq, -⟩ := Fifo.exists_deq hx
  obtain rfl : i = 0 := Subsingleton.elim _ _
  obtain ⟨outf, henq, -⟩ := Fifo.exists_enq (q := s.loader.outfs 0) (by rw [hout]; exact Nat.zero_lt_one) ()
  obtain ⟨l, hl⟩ : ∃ l, s.loader.finishIf 0 last = some l := by
    cases last with
    | false => exact ⟨s.loader, rfl⟩
    | true =>
      exact ⟨{ s.loader with outfs := Function.update s.loader.outfs 0 outf },
        by simp only [Loader.finishIf, if_true, Loader.finish, henq, bind, pure, Option.bind_some]⟩
  refine ⟨.writeDone, { s with donef, loader := l }, [.done], rfl, ?_, gains_event fun i j he => by cases he⟩
  simp only [memwriteEngine, putWriteDone, hdeq, hl, bind, pure, Option.bind_some]

/-- A burst is requested. -/
lemma leadsOn_writeReq (hload : s.loader.loadfC.items ≠ []) (hroom : s.workf.items.length < 32) :
    LeadsOn dataWidthBytes R s := by
  obtain ⟨⟨i, c⟩, xs, hx⟩ := List.exists_cons_of_ne_nil hload
  obtain ⟨loadfC, hdeq, -⟩ := Fifo.exists_deq hx
  obtain ⟨workf, henq, -⟩ := Fifo.exists_enq hroom (c.bl >>> beatShift dataWidthBytes, i, c.isLast)
  refine ⟨.writeReq, { s with loader := { s.loader with loadfC }, workf }, [.request i c.request], rfl, ?_,
    gains_event fun i j he => by cases he⟩
  simp only [memwriteEngine, getWriteReq, Loader.takeBurst, hdeq, henq, bind, pure, Option.bind_some]

/-- A beat is given. -/
lemma leadsOn_writeData (hworkf : s.workf.items ≠ []) (hdonef : s.donef.items = []) {x : Fin 1 × BitVec dataWidth}
    {f : BurstFunnel 1 dataWidth} (hdeq : s.writeDataFunnel.deq = some (x, f)) : LeadsOn dataWidthBytes R s := by
  obtain ⟨⟨rc, idx, last⟩, ws, hw⟩ := List.exists_cons_of_ne_nil hworkf
  obtain ⟨j, v⟩ := x
  obtain rfl : j = idx := Subsingleton.elim _ _
  obtain ⟨workf, hdrop⟩ := Fifo.exists_dropIf hw (decide (s.respCnt + 1 = rc))
  obtain ⟨donef, henq⟩ := Fifo.exists_enqIf (q := s.donef) (b := decide (s.respCnt + 1 = rc))
    (fun _ => by rw [hdonef]; decide) (j, last)
  refine ⟨.writeData, { s with
    respCnt := if decide (s.respCnt + 1 = rc) then 0 else s.respCnt + 1
    workf
    donef
    writeDataFunnel := f }, [.written j v], rfl, ?_, gains_event fun i j he => by cases he⟩
  simp only [memwriteEngine, getWriteData, Fifo.first, hw, List.head?_cons, hdrop, henq, hdeq, bind, pure,
    Option.bind_some, if_true]

/-- The burst funnel gets on. -/
lemma leadsOn_funnel {a : BurstFunnel.Action 1 dataWidth} {f : BurstFunnel 1 dataWidth}
    {es : List (BurstFunnel.Event 1 dataWidth)} (hdrains : a.Drains)
    (hs : (burstFunnel 1 dataWidth).step s.writeDataFunnel a = some (f, es)) (hlt : f.load < s.writeDataFunnel.load)
    (hworkf : s.writeDataFunnel.exitData.items ≠ [] → s.workf.items ≠ []) (hdonef : s.donef.items = []) :
    LeadsOn dataWidthBytes R s := by
  have hmoves : moves { s with writeDataFunnel := f } < s.moves := Nat.add_lt_add_right hlt _
  cases a with
  | loadIdx i | setBurstLen i v | enq i v => cases hdrains
  | moveData n =>
    simp only [burstFunnel, bind, pure, Option.bind_eq_some_iff, Option.some.injEq, Prod.mk.injEq] at hs
    obtain ⟨f, hmove, rfl, rfl⟩ := hs
    exact ⟨.moveData n, _, [], rfl, by simp only [memwriteEngine, hmove, bind, pure, Option.bind_some],
      gains_moves hmoves⟩
  | drainFunnel =>
    simp only [burstFunnel, bind, pure, Option.bind_eq_some_iff, Option.some.injEq, Prod.mk.injEq] at hs
    obtain ⟨f, hdrain, rfl, rfl⟩ := hs
    exact ⟨.drainFunnel, _, [], rfl, by simp only [memwriteEngine, hdrain, bind, pure, Option.bind_some],
      gains_moves hmoves⟩
  | drainReq =>
    simp only [burstFunnel, bind, pure, Option.bind_eq_some_iff, Option.some.injEq, Prod.mk.injEq] at hs
    obtain ⟨f, hdrain, rfl, rfl⟩ := hs
    exact ⟨.drainReq, _, [], rfl, by simp only [memwriteEngine, hdrain, bind, pure, Option.bind_some],
      gains_moves hmoves⟩
  | drainResp =>
    simp only [burstFunnel, bind, pure, Option.bind_eq_some_iff, Option.some.injEq, Prod.mk.injEq] at hs
    obtain ⟨f, hdrain, rfl, rfl⟩ := hs
    exact ⟨.drainResp, _, [], rfl, by simp only [memwriteEngine, hdrain, bind, pure, Option.bind_some],
      gains_moves hmoves⟩
  | deq =>
    simp only [burstFunnel, bind, pure, Option.bind_eq_some_iff, Prod.exists, Option.some.injEq, Prod.mk.injEq] at hs
    obtain ⟨i, v, f, hdeq, rfl, rfl⟩ := hs
    refine leadsOn_writeData (hworkf fun hnil => ?_) hdonef hdeq
    simp only [BurstFunnel.deq, bind, pure, Option.bind_eq_some_iff, Prod.exists, Fifo.deq_eq_some, Option.some.injEq,
      Prod.mk.injEq] at hdeq
    obtain ⟨j, u, q, hq, -⟩ := hdeq
    rw [hnil] at hq
    cases hq

/-- A command gets into its queue. -/
lemma Writes.leadsOn_command (h : Singles dataWidthBytes R s H) (hne : ∃ n, s.loader.cmdsIn.items n ≠ []) :
    LeadsOn dataWidthBytes R s := by
  by_cases hbottom : s.loader.cmdsIn.items (0, 0) = []
  · obtain ⟨n, cmdsIn, hmove, hweight⟩ := exists_funnelMove (bitsPerCycle_pos 1)
      h.keeps.confined h.keeps.levels (fun _ x _ => x.1.isLt) hbottom hne 1
    refine ⟨.moveCmd n, { s with loader := { s.loader with cmdsIn } }, [], rfl,
      by simp only [memwriteEngine, Loader.moveCmd, hmove, bind, pure, Option.bind_some], gains_moves ?_⟩
    exact Nat.add_lt_add_left (Nat.lt_of_succ_le hweight.ge) _
  · obtain ⟨⟨i, c⟩, xs, hx⟩ := List.exists_cons_of_ne_nil hbottom
    obtain ⟨cmdsIn, hdeq⟩ := Net.exists_deq hx
    have hnode : ((0, 0) : Node) ∈ Loader.cmdNodes 1 := by decide
    have hweight := Net.weight_deq (w := fun n : Node => n.1 + 1) hdeq hnode
    refine ⟨.storeCmd, { s with loader := { s.loader with
      outs1 := Function.update s.loader.outs1 i (s.loader.outs1 i + 1)
      cmdBuf := s.loader.cmdBuf.enq i c
      cmdsIn } }, [], rfl, by simp only [memwriteEngine, Loader.storeCmd, hdeq, bind, pure, Option.bind_some],
      gains_moves ?_⟩
    exact Nat.add_lt_add_left (Nat.lt_of_succ_le hweight.ge) _

/-- The loader gets on, if there is credit. -/
lemma Writes.leadsOn_load (hw : dataWidthBytes = 2 ^ k) (hb : bufferSizeBeats < 2 ^ 16)
    (h : Singles dataWidthBytes R s H) (hq : H.queues 0 ≠ []) (hC : s.loader.loadfC.items = [])
    (hcredit : 0 < H.ledger.credit 0) (hroom : s.writeDataFunnel.loadIdxs.items.length < 32) :
    LeadsOn dataWidthBytes R s := by
  have hcap : ∀ i c cs, H.queues i = c :: cs → c.fullBeats dataWidthBytes ≤ (s.loader.buffCap i).toNat := by
    intro i c cs hc
    obtain rfl : i = 0 := Subsingleton.elim _ _
    have hsingle : c.Single dataWidthBytes := h.single_of_mem_queues (by
      rw [hc]
      exact List.mem_append_left _ List.mem_cons_self)
    rw [hsingle.fullBeats hw, (h.mono (fixed_of_single hw)).buffCap_eq hb]
    exact hcredit
  rcases h.keeps.exists_load (m := 0) rfl ⟨0, hq⟩ hC hcap with ⟨l, hA, hlt, hsame⟩ | ⟨l, hB, hlt, hsame⟩ |
    ⟨l, hC, hlt, hsame⟩ | ⟨l, ⟨i, c⟩, hC⟩
  · exact ⟨.loadCtxtA, { s with loader := l }, [], rfl,
      by simp only [memwriteEngine, hA, bind, pure, Option.bind_some], gains_loader hlt hsame⟩
  · exact ⟨.loadCtxtB, { s with loader := l }, [], rfl,
      by simp only [memwriteEngine, hB, bind, pure, Option.bind_some], gains_loader hlt hsame⟩
  · exact ⟨.loadCtxtC, { s with loader := l }, [], rfl,
      by simp only [memwriteEngine, MemwriteEngine.loadCtxtC, hC, MemwriteEngine.loadIdx, bind, pure,
        Option.bind_some, Option.toList_none, List.map_nil], gains_loader hlt hsame⟩
  · obtain ⟨loadIdxs, henq, -⟩ := Fifo.exists_enq hroom (i, s.writeDataFunnel.nameGen)
    refine ⟨.loadCtxtC, { s with
      loader := l
      writeDataFunnel := { s.writeDataFunnel with
        loadIdxs
        nameGen := s.writeDataFunnel.nameGen + 1 } }, [.loaded i c], rfl, ?_, gains_event fun i j he => by cases he⟩
    simp only [memwriteEngine, MemwriteEngine.loadCtxtC, hC, MemwriteEngine.loadIdx, BurstFunnel.loadIdx, henq, bind,
      pure, Option.bind_some, Option.toList_some, List.map_singleton]

/-- The calls of the burst funnel are for one beat each. -/
lemma Writes.calls_one (hw : dataWidthBytes = 2 ^ k) (h : Singles dataWidthBytes R s H) :
    ∀ c ∈ (R.log dataWidthBytes).calls, c.2 = 1 := by
  intro c hc
  obtain ⟨b, hb, rfl⟩ := List.mem_map.mp hc
  exact (h.single_of_mem_loads hb).fullBeats hw

/-- A beat goes into the burst funnel. -/
lemma Writes.leadsOn_inject (hw : dataWidthBytes = 2 ^ k) (h : Singles dataWidthBytes R s H)
    (hdrained : BurstFunnel.Drained (R.log dataWidthBytes) s.writeDataFunnel)
    (hlt : R.injected.length < R.loads.length) : LeadsOn dataWidthBytes R s := by
  have ht := h.tally hw
  have hload : s.writeDataFunnel.loadIdxs.items ≠ [] := by
    intro hnil
    have hlen := h.carries.length_entered hnil
    have hsum : ((R.log dataWidthBytes).calls.map Prod.snd).sum = R.loads.length := by
      rw [List.map_congr_left (h.calls_one hw), List.map_const', List.sum_replicate_nat, Nat.mul_one, Record.log,
        List.length_map]
    rw [hsum] at hlen
    exact absurd hlen hlt.ne
  obtain ⟨⟨i, name⟩, es, he⟩ := List.exists_cons_of_ne_nil hload
  obtain rfl : i = 0 := Subsingleton.elim _ _
  have hbuff : (s.writeDataBuffs 0).items ≠ [] := by
    intro hnil
    have hpiped := ht.piped
    have hcredit := ht.credit
    rw [hnil, List.length_nil] at hpiped
    omega
  obtain ⟨v, vs, hv⟩ := List.exists_cons_of_ne_nil hbuff
  obtain ⟨q, hdeq, -⟩ := Fifo.exists_deq hv
  obtain ⟨f, henq⟩ := hdrained.2 _ _ he v
  refine ⟨.inject 0, { s with
    writeDataBuffs := Function.update s.writeDataBuffs 0 q
    writeDataFunnel := f }, [.injected 0 v], rfl, ?_, gains_event fun i j he => by cases he⟩
  simp only [memwriteEngine, MemwriteEngine.inject, hdeq, henq, bind, pure, Option.bind_some]

/-- What is at the end of the burst funnel has been requested. -/
lemma Writes.opened_ne_nil (hw : dataWidthBytes = 2 ^ k) (h : Singles dataWidthBytes R s H)
    (hC : s.loader.loadfC.items = []) (hexit : s.writeDataFunnel.exitData.items ≠ []) : H.opened ≠ [] := by
  intro hnil
  have ht := h.tally hw
  have hprefix := h.carries.exits_prefix.length_le
  have hpos := List.length_pos_of_ne_nil hexit
  rw [← h.carries.left, List.length_append, List.length_append] at hprefix
  have hleft : (R.log dataWidthBytes).left.length = R.written.length := rfl
  have hentered : (R.log dataWidthBytes).entered.length = R.injected.length := rfl
  have hloads := ht.loads
  have hrequests := ht.requests
  have hwritten := ht.written
  have hle := ht.injected_le
  rw [hC, List.length_nil] at hloads
  rw [hnil, List.length_nil] at hrequests
  omega

/-- **A command whose beat has come gets on**, until there is a response.

**Proof sketch.** Work from the end: answer a burst, else request one, else let the burst funnel get on, else bring the
beat into it, else bring the command into its queue. Then only the loader is left, and there is credit for the beat. -/
theorem Writes.exists_gain (hw : dataWidthBytes = 2 ^ k) (hb : bufferSizeBeats < 2 ^ 16)
    (h : Singles dataWidthBytes R s H) (hout : (s.loader.outfs 0).items = [])
    (hresp : R.responses 0 < (R.accepted 0).length)
    (hdata : R.loads.length < (R.accepted 0).length → R.loads.length < (R.piped 0).length) :
    LeadsOn dataWidthBytes R s := by
  obtain ⟨haccepted, hloads, hrequests, hwritten, -, hresponses, houts0, houts0_le, hpiped, hcredit, hle,
    hinjected⟩ := h.tally hw
  rw [hout, List.length_nil, Nat.add_zero] at hresponses
  by_cases hdonef : s.donef.items = []
  swap
  · exact leadsOn_writeDone hdonef hout
  have hclosed : H.closed = [] := by
    rw [h.donef] at hdonef
    exact List.map_eq_nil_iff.mp hdonef
  rw [hclosed, List.length_nil] at hrequests hwritten
  by_cases hC : s.loader.loadfC.items = []
  swap
  · refine leadsOn_writeReq hC ?_
    rw [h.workf, List.length_map]
    omega
  rw [hC, List.length_nil] at hloads
  rcases h.carries.exists_step with hdrained | ⟨a, f, es, hdrains, hs, hlt⟩
  swap
  · refine leadsOn_funnel hdrains hs hlt (fun hexit => ?_) hdonef
    rw [h.workf]
    exact fun hnil => h.opened_ne_nil hw hC hexit (List.map_eq_nil_iff.mp hnil)
  have hall : R.written.length = R.injected.length := congrArg List.length hdrained.1
  by_cases hinject : R.injected.length < R.loads.length
  · exact h.leadsOn_inject hw hdrained hinject
  by_cases hcmds : ∃ n, s.loader.cmdsIn.items n ≠ []
  · exact h.leadsOn_command hcmds
  -- all is in the queue
  have hwait : s.loader.waiting 0 = [] := Net.stream_eq_nil (fun n x hx => by
    rw [not_not.mp (not_exists.mp hcmds n)] at hx
    cases hx) _
  rw [hwait, List.length_nil] at haccepted
  have hq : H.queues 0 ≠ [] := by
    intro hnil
    rw [hnil, List.length_nil] at haccepted
    omega
  refine h.leadsOn_load hw hb hq hC ?_ ?_
  · have hpos := List.length_pos_of_ne_nil hq
    have hlt := hdata (by omega)
    omega
  · have hlen := h.carries.length_loadIdxs (h.calls_one hw)
    have hcalls : (R.log dataWidthBytes).calls.length = R.loads.length := List.length_map _
    have hentered : (R.log dataWidthBytes).entered.length = R.injected.length := rfl
    omega

end Progress

end MemwriteEngine

end Xbsv
