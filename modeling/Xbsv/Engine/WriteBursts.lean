import Xbsv.Engine.BurstFlights
import Xbsv.Engine.MemwriteEngine

set_option relaxedAutoImplicit false
set_option autoImplicit false

/-!
# The bursts of the write engine

The state of a write engine against its past. The bursts handed on by the loader fall into those that the
memory has answered, those whose data has all been given, those requested, and one that waits to be
requested; the burst funnel was called for each of them in this order. As long as it was called with the
right number of beats, what it gives is the data of these bursts in turn.

The number of beats is what the register of the server says when the burst is handed on, not when its
command is put. So the register has to hold the right number for all bursts of the server that are to
come, and a command with bursts of another length may only be put when there are none: `Undisturbed`.

## Main definitions

* `Xbsv.MemwriteEngine.Record` — what can be seen of a run.
* `Xbsv.MemwriteEngine.Writes` — the state agrees with the past.
* `Xbsv.MemwriteEngine.Undisturbed` — the steps that leave the lengths of bursts to come as they are.
* `Xbsv.MemwriteEngine.Written` — the beats given are those of the bursts requested.

## Main results

* `Xbsv.MemwriteEngine.Writes.step`, `Xbsv.MemwriteEngine.exists_writes` — one step, and a whole run.
* `Xbsv.memwrite_written` — what has been given to the memory.
-/

namespace Xbsv

open Rules

namespace MemengineCmd

/-- The command is made of full bursts, each of 1 to 16 beats by the shift of the engines. -/
structure Grouped (dataWidthBytes : ℕ) (c : MemengineCmd) : Prop where
  len_pos : 0 < c.len.toNat
  dvd : c.burstLen.toNat ∣ c.len.toNat
  beats_pos : 1 ≤ c.fullBeats dataWidthBytes
  beats_le : c.fullBeats dataWidthBytes ≤ 16

instance (dataWidthBytes : ℕ) (c : MemengineCmd) : Decidable (c.Grouped dataWidthBytes) :=
  decidable_of_iff (0 < c.len.toNat ∧ c.burstLen.toNat ∣ c.len.toNat ∧
      1 ≤ c.fullBeats dataWidthBytes ∧ c.fullBeats dataWidthBytes ≤ 16)
    ⟨fun h => ⟨h.1, h.2.1, h.2.2.1, h.2.2.2⟩, fun h => ⟨h.len_pos, h.dvd, h.beats_pos, h.beats_le⟩⟩

variable {dataWidthBytes : ℕ} {c d : MemengineCmd}

lemma Grouped.proper (h : c.Grouped dataWidthBytes) : c.Proper := by
  refine ⟨?_, h.len_pos⟩
  by_contra h0
  have hz : c.burstLen = 0 := BitVec.eq_of_toNat_eq (by simpa using h0)
  have hpos := h.beats_pos
  rw [fullBeats, hz, BitVec.ofNat_eq_ofNat, BitVec.zero_ushiftRight] at hpos
  simp at hpos

/-- All bursts of a command have the same number of beats. -/
lemma fullBeats_of_mem_bursts (hp : c.Proper) (hd : d ∈ c.bursts) :
    d.fullBeats dataWidthBytes = c.fullBeats dataWidthBytes := by
  rw [fullBeats, fullBeats, burstLen_of_mem_bursts hp d hd]

end MemengineCmd

namespace MemwriteEngine

section Record

variable {dataWidth numServers : ℕ}

namespace Record

variable (R : Record dataWidth numServers)

/-- What went into the burst funnel and came out. -/
def log (dataWidthBytes : ℕ) : BurstFunnel.Log numServers dataWidth :=
  ⟨R.loads.map fun b => (b.1, b.2.fullBeats dataWidthBytes), R.injected, R.written⟩

/-- The bursts of server `i` that the loader handed on. -/
def loadsOf (i : Fin numServers) : List MemengineCmd :=
  (R.loads.filter fun b => b.1 = i).map Prod.snd

/-- The bursts of server `i` that are to come. -/
def upcoming (i : Fin numServers) : List MemengineCmd :=
  ((R.accepted i).flatMap MemengineCmd.bursts).drop (R.loadsOf i).length

/-- The credit that the bursts of server `i` took. -/
def claimed (dataWidthBytes : ℕ) (i : Fin numServers) : ℕ :=
  ((R.loadsOf i).map (MemengineCmd.fullBeats dataWidthBytes)).sum

end Record

lemma recordOf_append (tr es : List (Event dataWidth numServers)) :
    recordOf (tr ++ es) = es.foldl Record.add (recordOf tr) := List.foldl_append

end Record

/-- The past of a write engine that its state does not tell. -/
structure History (dataWidth numServers : ℕ) where
  ledger : Ledger numServers
  /-- What is left of the commands in the queues. -/
  queues : Fin numServers → List MemengineCmd
  flights : BurstFunnel.Flights numServers dataWidth
  /-- The bursts that the memory has answered. -/
  acked : List (Fin numServers × MemengineCmd)
  /-- The bursts not answered whose data has been given. -/
  closed : List (Fin numServers × MemengineCmd)
  /-- The bursts requested whose data has not all been given. -/
  opened : List (Fin numServers × MemengineCmd)

/-- The bursts requested. -/
def History.requested {dataWidth numServers : ℕ} (H : History dataWidth numServers) :
    List (Fin numServers × MemengineCmd) := H.acked ++ (H.closed ++ H.opened)

variable {dataWidth dataWidthBytes cmdQDepth numServers bufferSizeBeats : ℕ}

/-- The entry of `workf` for a burst. -/
def entry (dataWidthBytes : ℕ) (b : Fin numServers × MemengineCmd) : BitVec 8 × Fin numServers × Bool :=
  (b.2.bl >>> beatShift dataWidthBytes, b.1, b.2.isLast)

/-- The state of a write engine agrees with its past; the commands put meet the condition `P`. -/
structure Writes (P : Fin numServers → MemengineCmd → Prop) (dataWidthBytes : ℕ)
    (R : Record dataWidth numServers)
    (s : MemwriteEngine dataWidth cmdQDepth numServers bufferSizeBeats)
    (H : History dataWidth numServers) : Prop where
  keeps : s.loader.Keeps dataWidthBytes H.ledger H.queues
  carries : BurstFunnel.Carries (R.log dataWidthBytes) s.writeDataFunnel H.flights
  accepted : H.ledger.accepted = R.accepted
  puts : ∀ i, ∀ c ∈ R.accepted i, P i c
  grouped : ∀ i, ∀ c ∈ R.accepted i, c.Grouped dataWidthBytes
  answered : H.ledger.answered = R.responses
  loads : R.loads = H.requested ++ s.loader.loadfC.items
  requests : R.requests = H.requested.map fun b => (b.1, b.2.request)
  issued : ∀ i, H.ledger.issued i = (H.requested.filter fun b => b.1 = i).map Prod.snd
  finished : ∀ i, H.ledger.finished i = H.acked.countP fun b => b.1 = i ∧ b.2.isLast
  dones : R.dones = H.acked.length
  donef : s.donef.items = H.closed.map fun b => (b.1, b.2.isLast)
  workf : s.workf.items = H.opened.map (entry dataWidthBytes)
  written : R.written.length =
    ((H.acked ++ H.closed).map fun b => b.2.fullBeats dataWidthBytes).sum + s.respCnt.toNat
  respCnt_zero : H.opened = [] → s.respCnt.toNat = 0
  respCnt_lt : ∀ b ∈ H.opened.head?, s.respCnt.toNat < b.2.fullBeats dataWidthBytes
  oo : R.oo = []
  piped : ∀ i, R.piped i = BurstFunnel.fromInput R.injected i ++ (s.writeDataBuffs i).items
  credit : ∀ i, H.ledger.credit i + R.claimed dataWidthBytes i = (R.piped i).length
  register : ∀ i, ∀ c ∈ R.upcoming i,
    (s.writeDataFunnel.burstLen i).toNat = c.fullBeats dataWidthBytes

/-- The commands put meet the condition `P`. -/
def Puts (P : Fin numServers → MemengineCmd → Prop)
    (_ : MemwriteEngine dataWidth cmdQDepth numServers bufferSizeBeats) :
    Action dataWidth numServers → Prop
  | .put i c => P i c
  | _ => True

instance (P : Fin numServers → MemengineCmd → Prop) [∀ i c, Decidable (P i c)]
    (s : MemwriteEngine dataWidth cmdQDepth numServers bufferSizeBeats)
    (a : Action dataWidth numServers) : Decidable (Puts P s a) := by
  cases a <;> unfold Puts <;> infer_instance

/-- Nothing of server `i` is to come: its commands have all been handed on, and its bursts have begun to
be drained. -/
def Idle (s : MemwriteEngine dataWidth cmdQDepth numServers bufferSizeBeats) (i : Fin numServers) : Prop :=
  s.loader.waiting i = [] ∧ s.loader.outs1 i = 0 ∧ s.writeDataFunnel.Settled i

instance (s : MemwriteEngine dataWidth cmdQDepth numServers bufferSizeBeats) (i : Fin numServers) :
    Decidable (s.Idle i) :=
  inferInstanceAs (Decidable (_ ∧ _ ∧ _))

/-- A command is put that is made of full bursts, and their length is that of the bursts of the server that
are to come, if there are any. -/
def Undisturbed (dataWidthBytes : ℕ)
    (s : MemwriteEngine dataWidth cmdQDepth numServers bufferSizeBeats) :
    Action dataWidth numServers → Prop
  | .put i c => c.Grouped dataWidthBytes ∧
      (c.burstLen >>> beatShift dataWidthBytes = s.writeDataFunnel.burstLen i ∨ s.Idle i)
  | _ => True

instance (s : MemwriteEngine dataWidth cmdQDepth numServers bufferSizeBeats)
    (a : Action dataWidth numServers) : Decidable (Undisturbed dataWidthBytes s a) := by
  cases a <;> unfold Undisturbed <;> infer_instance

/-! ## Small facts -/

variable {P : Fin numServers → MemengineCmd → Prop} {R : Record dataWidth numServers}
  {s s' : MemwriteEngine dataWidth cmdQDepth numServers bufferSizeBeats}
  {H : History dataWidth numServers}

/-- The bursts handed on for a server are those requested and the one that waits to be. -/
lemma Writes.loadsOf_eq (h : Writes P dataWidthBytes R s H) (i : Fin numServers) :
    R.loadsOf i = H.ledger.issued i ++ s.loader.pending i := by
  rw [Record.loadsOf, h.loads, List.filter_append, List.map_append, h.issued i]
  rfl

/-- The bursts of the commands of a server: those handed on, and those to come. -/
lemma Writes.bursts_eq (h : Writes P dataWidthBytes R s H) (i : Fin numServers) :
    (R.accepted i).flatMap MemengineCmd.bursts =
      R.loadsOf i ++ (H.queues i ++ s.loader.waiting i).flatMap MemengineCmd.bursts := by
  rw [← h.accepted, h.keeps.flow i, h.loadsOf_eq i, List.append_assoc]

lemma Writes.upcoming_eq (h : Writes P dataWidthBytes R s H) (i : Fin numServers) :
    R.upcoming i = (H.queues i ++ s.loader.waiting i).flatMap MemengineCmd.bursts := by
  rw [Record.upcoming, h.bursts_eq i, List.drop_left]

/-- All bursts are full, and of 1 to 16 beats. -/
lemma Writes.burst (h : Writes P dataWidthBytes R s H) {i : Fin numServers} {c : MemengineCmd}
    (hc : c ∈ (R.accepted i).flatMap MemengineCmd.bursts) :
    (1 ≤ c.fullBeats dataWidthBytes ∧ c.fullBeats dataWidthBytes ≤ 16) ∧ c.bl = c.burstLen := by
  obtain ⟨d, hd, hcd⟩ := List.mem_flatMap.mp hc
  have hg := h.grouped i d hd
  rw [MemengineCmd.fullBeats_of_mem_bursts hg.proper hcd]
  exact ⟨⟨hg.beats_pos, hg.beats_le⟩,
    BitVec.eq_of_toNat_eq (MemengineCmd.bl_of_dvd hg.proper hg.dvd c hcd)⟩

lemma Writes.mem_bursts (h : Writes P dataWidthBytes R s H) {b : Fin numServers × MemengineCmd}
    (hb : b ∈ R.loads) : b.2 ∈ (R.accepted b.1).flatMap MemengineCmd.bursts := by
  rw [h.bursts_eq b.1]
  refine List.mem_append_left _ (List.mem_map_of_mem (List.mem_filter.mpr ⟨hb, ?_⟩))
  simp

/-- The number of beats in an entry of `workf`. -/
lemma Writes.entry_eq (h : Writes P dataWidthBytes R s H) {b : Fin numServers × MemengineCmd}
    (hb : b ∈ R.loads) : (entry dataWidthBytes b).1.toNat = b.2.fullBeats dataWidthBytes := by
  rw [entry, (h.burst (h.mem_bursts hb)).2]
  rfl

/-! ## The steps -/

/-- After reset. -/
lemma writes_reset (hd : 0 < cmdQDepth)
    (buff : BitVec (buffAddrSz numServers cmdQDepth) → MemengineCmd)
    (complBuff : BitVec (buffAddrSz 4 16) → BitVec dataWidth × Bool) :
    Writes P dataWidthBytes .empty (reset dataWidth cmdQDepth numServers bufferSizeBeats buff complBuff)
      ⟨.start numServers 0, fun _ => [], ⟨[], [], [], fun _ => [], fun _ => 0, []⟩, [], [], []⟩ where
  keeps := Loader.keeps_reset hd 0 buff
  carries := BurstFunnel.carries_reset complBuff
  accepted := rfl
  puts i c hc := by cases hc
  grouped i c hc := by cases hc
  answered := rfl
  loads := rfl
  requests := rfl
  issued _ := rfl
  finished _ := rfl
  dones := rfl
  donef := rfl
  workf := rfl
  written := rfl
  respCnt_zero _ := rfl
  respCnt_lt b hb := by cases hb
  oo := rfl
  piped _ := rfl
  credit _ := rfl
  register i c hc := by cases hc

/-- A rule of the loader that changes neither its record nor the burst that waits. -/
lemma Writes.silent (h : Writes P dataWidthBytes R s H) {l : Loader cmdQDepth numServers}
    {q : Fin numServers → List MemengineCmd} (hk : l.Keeps dataWidthBytes H.ledger q)
    (hload : l.loadfC = s.loader.loadfC) :
    Writes P dataWidthBytes R { s with loader := l } { H with queues := q } := by
  refine { h with
    keeps := hk
    loads := ?_ }
  rw [hload]
  exact h.loads

/-- A rule of the burst funnel. -/
lemma Writes.funnel (h : Writes P dataWidthBytes R s H) {f : BurstFunnel numServers dataWidth}
    {V : BurstFunnel.Flights numServers dataWidth}
    (hf : BurstFunnel.Carries (R.log dataWidthBytes) f V)
    (hreg : f.burstLen = s.writeDataFunnel.burstLen) :
    Writes P dataWidthBytes R { s with writeDataFunnel := f } { H with flights := V } := by
  refine { h with
    carries := hf
    register := fun i c hc => ?_ }
  rw [hreg]
  exact h.register i c hc

/-- A command is put. -/
lemma Writes.put (h : Writes P dataWidthBytes R s H) {i : Fin numServers} {c : MemengineCmd}
    (hp : P i c) (hc : c.Grouped dataWidthBytes)
    (hreg : c.burstLen >>> beatShift dataWidthBytes = s.writeDataFunnel.burstLen i ∨ s.Idle i)
    (hs : s.put dataWidthBytes i c = some s') :
    ∃ H', Writes P dataWidthBytes (R.add (.accepted i c)) s' H' := by
  simp only [MemwriteEngine.put, bind, pure, Option.bind_eq_some_iff, Option.some.injEq] at hs
  obtain ⟨loader, hput, rfl⟩ := hs
  obtain ⟨hk, hload⟩ := h.keeps.put hc.proper hput
  -- what is to come of the server is as long as the new bursts
  have hcome : ∀ d ∈ R.upcoming i,
      (c.burstLen >>> beatShift dataWidthBytes).toNat = d.fullBeats dataWidthBytes := by
    intro d hd
    rcases hreg with hreg | ⟨hwait, houts, -⟩
    · rw [hreg]
      exact h.register i d hd
    · have hq : H.queues i = [] := by
        refine List.eq_nil_of_length_eq_zero ?_
        rw [← h.keeps.outs1 i, houts, BitVec.ofNat_eq_ofNat, BitVec.toNat_ofNat, Nat.zero_mod]
      rw [h.upcoming_eq i, hq, hwait] at hd
      cases hd
  have hmem : ∀ j, ∀ d ∈ (R.add (.accepted i c)).accepted j, d ∈ R.accepted j ∨ j = i ∧ d = c := by
    intro j d hd
    by_cases hj : j = i
    · subst hj
      simp only [Record.add, Function.update_self, List.mem_append, List.mem_singleton] at hd
      exact hd.imp_right fun he => ⟨rfl, he⟩
    · simp only [Record.add, Function.update_of_ne hj] at hd
      exact .inl hd
  refine ⟨{ H with ledger := H.ledger.accept i c }, { h with
    keeps := hk
    carries := h.carries.setBurstLen (hreg.imp_right fun hidle => hidle.2.2)
    accepted := ?_
    puts := fun j d hd => ?_
    grouped := fun j d hd => ?_
    loads := ?_
    register := fun j d hd => ?_ }⟩
  · rw [Record.add, Ledger.accept, h.accepted]
  · rcases hmem j d hd with hd | ⟨rfl, rfl⟩
    · exact h.puts j d hd
    · exact hp
  · rcases hmem j d hd with hd | ⟨rfl, rfl⟩
    · exact h.grouped j d hd
    · exact hc
  · rw [hload]
    exact h.loads
  · by_cases hj : j = i
    · subst hj
      have hlen : (R.loadsOf j).length ≤ ((R.accepted j).flatMap MemengineCmd.bursts).length := by
        rw [h.bursts_eq j, List.length_append]
        omega
      have hd' : d ∈ R.upcoming j ++ c.bursts := by
        rw [Record.upcoming, ← List.drop_append_of_le_length hlen]
        simpa [Record.upcoming, Record.add, Record.loadsOf] using hd
      simp only [BurstFunnel.setBurstLen, Function.update_self]
      rcases List.mem_append.mp hd' with hd' | hd'
      · exact hcome d hd'
      · rw [MemengineCmd.fullBeats_of_mem_bursts hc.proper hd']
        rfl
    · have hd' : d ∈ R.upcoming j := by
        simpa [Record.upcoming, Record.add, Record.loadsOf, Function.update_of_ne hj] using hd
      simp only [BurstFunnel.setBurstLen, Function.update_of_ne hj]
      exact h.register j d hd'

/-- A response is fetched. -/
lemma Writes.get (h : Writes P dataWidthBytes R s H) {i : Fin numServers}
    {l : Loader cmdQDepth numServers} (hs : s.loader.get i = some l) :
    ∃ H', Writes P dataWidthBytes (R.add (.response i)) { s with loader := l } H' := by
  obtain ⟨hk, hload⟩ := h.keeps.get hs
  refine ⟨{ H with ledger := H.ledger.answer i }, { h with
    keeps := hk
    answered := ?_
    loads := ?_ }⟩
  · rw [Record.add, Ledger.answer, h.answered]
  · rw [hload]
    exact h.loads

/-- The loader hands on a burst. -/
lemma Writes.loadBurst (h : Writes P dataWidthBytes R s H) {i : Fin numServers} {c : MemengineCmd}
    (hs : s.loadCtxtC dataWidthBytes = some (some (i, c), s')) :
    ∃ H', Writes P dataWidthBytes (R.add (.loaded i c)) s' H' := by
  simp only [MemwriteEngine.loadCtxtC, bind, pure, Option.bind_eq_some_iff, Prod.exists,
    Option.some.injEq, Prod.mk.injEq] at hs
  obtain ⟨l, burst, hload, f, hf, rfl, rfl⟩ := hs
  obtain ⟨cs, hq, hle, hloadfC, hk⟩ := h.keeps.loadCtxtC_some hload
  have hproper : c.Proper := h.keeps.proper i c (List.mem_append_left _ (hq ▸ List.mem_cons_self))
  have hup : R.upcoming i = c ::
      (((if c.isLast then cs else c.next :: cs) ++ s.loader.waiting i).flatMap MemengineCmd.bursts) := by
    rw [h.upcoming_eq i, hq, List.flatMap_append, Loader.bursts_cons hproper, List.flatMap_append]
    rfl
  have hmem : c ∈ (R.accepted i).flatMap MemengineCmd.bursts :=
    List.mem_of_mem_drop (show c ∈ R.upcoming i by rw [hup]; exact List.mem_cons_self)
  have hreg := h.register i c (by rw [hup]; exact List.mem_cons_self)
  -- the funnel reads the length of the burst from the register
  obtain ⟨V, hV⟩ := h.carries.loadIdx (by rw [hreg]; exact (h.burst hmem).1) hf
  have hburstLen := BurstFunnel.burstLen_loadIdx hf
  have hloads : ∀ j, (R.add (.loaded i c)).loadsOf j = R.loadsOf j ++ if i = j then [c] else [] := by
    intro j
    rw [Record.loadsOf, Record.add, List.filter_append, List.map_append]
    by_cases hj : i = j
    · simp [Record.loadsOf, hj]
    · simp [Record.loadsOf, hj]
  refine ⟨{ H with
      ledger := H.ledger.setCredit i (H.ledger.credit i - c.fullBeats dataWidthBytes)
      queues := Function.update H.queues i (if c.isLast then cs else c.next :: cs)
      flights := V }, { h with
    keeps := hk
    carries := ?_
    loads := ?_
    credit := fun j => ?_
    register := fun j d hd => ?_ }⟩
  · have hlog : (R.add (.loaded i c)).log dataWidthBytes = { R.log dataWidthBytes with
        calls := (R.log dataWidthBytes).calls ++
          [(i, (s.writeDataFunnel.burstLen i).toNat)] } := by
      rw [hreg, Record.log, Record.add, List.map_append]
      rfl
    rw [hlog]
    exact hV
  · rw [hloadfC, ← List.append_assoc, Record.add, h.loads]
    rfl
  · have hcredit := h.credit j
    rw [Record.claimed, hloads j, List.map_append, List.sum_append]
    rw [Record.claimed] at hcredit
    by_cases hj : j = i
    · subst hj
      simp only [Ledger.setCredit, Function.update_self, if_true, List.map_singleton,
        List.sum_singleton]
      change _ = (R.piped j).length
      omega
    · have hij : i ≠ j := fun he => hj he.symm
      simp only [Ledger.setCredit, Function.update_of_ne hj, hij, if_false, List.map_nil, List.sum_nil,
        Nat.add_zero]
      exact hcredit
  · rw [hburstLen]
    refine h.register j d ?_
    rw [Record.upcoming, hloads j, List.length_append, ← List.drop_drop] at hd
    exact List.mem_of_mem_drop hd

/-- A beat comes into a buffer. -/
lemma Writes.pipe (h : Writes P dataWidthBytes R s H) {i : Fin numServers} {v : BitVec dataWidth}
    (hs : s.pipe i v = some s') : ∃ H', Writes P dataWidthBytes (R.add (.piped i v)) s' H' := by
  simp only [MemwriteEngine.pipe, bind, pure, Option.bind_eq_some_iff, Fifo.enq_eq_some,
    Option.some.injEq] at hs
  obtain ⟨f, ⟨-, hf⟩, rfl⟩ := hs
  refine ⟨{ H with ledger := H.ledger.setCredit i (H.ledger.credit i + 1) }, { h with
    keeps := h.keeps.giveCredit i
    loads := h.loads
    piped := fun j => ?_
    credit := fun j => ?_ }⟩
  · have hpiped := h.piped j
    by_cases hj : j = i
    · subst hj
      simp only [Record.add, Function.update_self, hf, hpiped, List.append_assoc]
    · simpa only [Record.add, Function.update_of_ne hj] using hpiped
  · have hcredit : H.ledger.credit j + (R.add (.piped i v)).claimed dataWidthBytes j =
        (R.piped j).length := h.credit j
    by_cases hj : j = i
    · subst hj
      simp only [Record.add, Ledger.setCredit, Function.update_self, List.length_append,
        List.length_singleton] at hcredit ⊢
      omega
    · simpa only [Record.add, Ledger.setCredit, Function.update_of_ne hj] using hcredit

/-- A beat goes into the burst funnel. -/
lemma Writes.inject (h : Writes P dataWidthBytes R s H) {i : Fin numServers} {v : BitVec dataWidth}
    (hs : s.inject i = some (v, s')) :
    ∃ H', Writes P dataWidthBytes (R.add (.injected i v)) s' H' := by
  simp only [MemwriteEngine.inject, bind, pure, Option.bind_eq_some_iff, Prod.exists, Fifo.deq_eq_some,
    Option.some.injEq, Prod.mk.injEq] at hs
  obtain ⟨u, q, hq, f, hf, rfl, rfl⟩ := hs
  obtain ⟨V, hV⟩ := h.carries.enq hf
  have hburstLen := BurstFunnel.burstLen_enq hf
  refine ⟨{ H with flights := V }, { h with
    carries := hV
    piped := fun j => ?_
    register := fun j c hc => ?_ }⟩
  · have hpiped := h.piped j
    have hone : BurstFunnel.fromInput [(i, u)] j = if i = j then [u] else [] :=
      BurstFunnel.fromInput_map [u] i j
    rw [Record.add, BurstFunnel.fromInput_append, hone]
    by_cases hj : j = i
    · subst hj
      rw [hq] at hpiped
      simpa using hpiped
    · have hij : i ≠ j := fun he => hj he.symm
      simpa [Function.update_of_ne hj, hij] using hpiped
  · rw [hburstLen]
    exact h.register j c hc

/-- A burst is requested. -/
lemma Writes.writeReq (h : Writes P dataWidthBytes R s H) {i : Fin numServers} {r : ObjectRequest}
    (hs : s.getWriteReq dataWidthBytes = some ((i, r), s')) :
    ∃ H', Writes P dataWidthBytes (R.add (.request i r)) s' H' := by
  simp only [getWriteReq, bind, pure, Option.bind_eq_some_iff, Prod.exists, Fifo.enq_eq_some,
    Option.some.injEq, Prod.mk.injEq] at hs
  obtain ⟨j, c, loader, htake, workf, ⟨-, hworkf⟩, ⟨rfl, rfl⟩, rfl⟩ := hs
  obtain ⟨hloadfC, hk⟩ := h.keeps.takeBurst htake
  have hmem : (j, c) ∈ R.loads := by
    rw [h.loads, hloadfC]
    simp
  have hrequested : ({ H with ledger := H.ledger.issue j c, opened := H.opened ++ [(j, c)] } :
      History dataWidth numServers).requested = H.requested ++ [(j, c)] := by
    simp [History.requested]
  refine ⟨{ H with ledger := H.ledger.issue j c, opened := H.opened ++ [(j, c)] }, { h with
    keeps := hk
    loads := ?_
    requests := ?_
    issued := fun k => ?_
    workf := ?_
    respCnt_zero := fun hnil => by simp at hnil
    respCnt_lt := fun b hb => ?_ }⟩
  · rw [hrequested, List.append_assoc]
    have hloads := h.loads
    rw [hloadfC] at hloads
    exact hloads
  · rw [hrequested, List.map_append, Record.add, h.requests]
    rfl
  · rw [hrequested]
    by_cases hk : k = j
    · subst hk
      simp [Ledger.issue, h.issued]
    · have hjk : j ≠ k := fun he => hk he.symm
      simp [Ledger.issue, Function.update_of_ne hk, h.issued, hjk]
  · rw [hworkf, h.workf, List.map_append]
    rfl
  · cases hopen : H.opened with
    | nil =>
      simp only [hopen, List.nil_append, List.head?_cons, Option.mem_some_iff] at hb
      subst hb
      rw [h.respCnt_zero hopen]
      exact (h.burst (h.mem_bursts hmem)).1.1
    | cons b' bs =>
      refine h.respCnt_lt b ?_
      simpa [hopen] using hb

/-- The memory answers a burst, the oldest whose data has all been given. -/
lemma Writes.writeDone (h : Writes P dataWidthBytes R s H) (hs : s.putWriteDone = some s') :
    ∃ H', Writes P dataWidthBytes (R.add .done) s' H' := by
  simp only [putWriteDone, bind, pure, Option.bind_eq_some_iff, Prod.exists, Fifo.deq_eq_some,
    Option.some.injEq] at hs
  obtain ⟨i, last, donef, hdonef, l, hfinish, rfl⟩ := hs
  obtain ⟨b, bs, hclosed⟩ : ∃ b bs, H.closed = b :: bs := by
    refine List.exists_cons_of_ne_nil fun hnil => ?_
    rw [h.donef, hnil] at hdonef
    cases hdonef
  rw [h.donef, hclosed, List.map_cons, List.cons.injEq, Prod.mk.injEq] at hdonef
  obtain ⟨⟨rfl, rfl⟩, hrest⟩ := hdonef
  -- the last burst of a command was requested, and it was not answered before
  have hlt : b.2.isLast = true →
      H.ledger.finished b.1 < (H.ledger.issued b.1).countP MemengineCmd.isLast := by
    intro hlast
    rw [h.finished, h.issued, History.requested, hclosed, List.countP_map, List.countP_filter,
      List.countP_append, List.cons_append, List.countP_cons_of_pos (by simp [hlast])]
    have hsame : H.acked.countP (fun c => decide (c.1 = b.1 ∧ c.2.isLast = true)) =
        H.acked.countP fun c => (MemengineCmd.isLast ∘ Prod.snd) c && decide (c.1 = b.1) :=
      List.countP_congr fun c _ => by simp [and_comm]
    omega
  obtain ⟨hk, hload⟩ := h.keeps.finishIf hfinish hlt
  have hrequested : ({ H with acked := H.acked ++ [b], closed := bs } :
      History dataWidth numServers).requested = H.requested := by
    simp [History.requested, hclosed]
  refine ⟨{ H with
      ledger := { H.ledger with
        finished := fun j => H.ledger.finished j + if b.1 = j ∧ b.2.isLast = true then 1 else 0 }
      acked := H.acked ++ [b]
      closed := bs }, { h with
    keeps := hk
    loads := ?_
    requests := h.requests.trans ?_
    issued := fun j => (h.issued j).trans ?_
    finished := fun j => ?_
    dones := ?_
    donef := hrest.symm
    written := ?_ }⟩
  · rw [hload]
    exact h.loads.trans (congrArg (· ++ s.loader.loadfC.items) hrequested.symm)
  · exact congrArg (List.map _) hrequested.symm
  · exact congrArg (fun l => (List.filter _ l).map Prod.snd) hrequested.symm
  · simp only [List.countP_append, List.countP_singleton, decide_eq_true_eq, h.finished]
  · rw [Record.add, List.length_append, List.length_singleton, ← h.dones]
  · have hwritten := h.written
    rw [hclosed] at hwritten
    rw [List.append_assoc]
    exact hwritten

/-- **A beat is given to the memory**: it is the next one of the oldest burst whose data has not all been
given, and comes from its server. -/
lemma Writes.writeData (h : Writes P dataWidthBytes R s H) {i j : Fin numServers} {v : BitVec dataWidth}
    (hs : s.getWriteData = some ((i, j, v), s')) :
    j = i ∧ ∃ H', Writes P dataWidthBytes (R.add (.written i v)) s' H' := by
  simp only [getWriteData, bind, pure, Option.bind_eq_some_iff, Prod.exists, Fifo.first_eq_some,
    Option.some.injEq, Prod.mk.injEq] at hs
  obtain ⟨rc, idx, last, ⟨ws, hfirst⟩, workf, hworkf, donef, hdonef, label, u, f, hf,
    ⟨rfl, rfl, rfl⟩, rfl⟩ := hs
  -- the entry is that of the oldest burst
  obtain ⟨b, bs, hopen⟩ : ∃ b bs, H.opened = b :: bs := by
    refine List.exists_cons_of_ne_nil fun hnil => ?_
    rw [h.workf, hnil] at hfirst
    cases hfirst
  have hentry := hfirst
  rw [h.workf, hopen, List.map_cons, List.cons.injEq] at hentry
  obtain ⟨hb, hws⟩ := hentry
  have hmem : ∀ c ∈ H.opened, c ∈ R.loads := by
    intro c hc
    rw [h.loads, History.requested]
    simp [hc]
  have hbm : b ∈ R.loads := hmem b (by simp [hopen])
  have hrc : rc.toNat = b.2.fullBeats dataWidthBytes := by
    rw [← h.entry_eq hbm, hb]
  have hbeats := (h.burst (h.mem_bursts hbm)).1
  have hr := h.respCnt_lt b (by simp [hopen])
  have hcnt : (s.respCnt + 1).toNat = s.respCnt.toNat + 1 :=
    Loader.counter_add_one (m := 16) (by omega) (by decide)
  obtain ⟨rfl, rfl⟩ : b.1 = idx ∧ b.2.isLast = last := by
    simp only [entry, Prod.mk.injEq] at hb
    exact hb.2
  have hcarries := h.carries.deq hf
  -- the beats given are those of the bursts before, and `respCnt` of this one
  have hcalls : (R.log dataWidthBytes).calls =
      ((H.acked ++ H.closed).map fun b => (b.1, b.2.fullBeats dataWidthBytes)) ++
        (b.1, b.2.fullBeats dataWidthBytes) ::
          ((bs ++ s.loader.loadfC.items).map fun b => (b.1, b.2.fullBeats dataWidthBytes)) := by
    rw [Record.log, h.loads, History.requested, hopen]
    simp
  have hlabel : label = b.1 := by
    refine hcarries.label_eq hcalls rfl ?_ hr
    rw [List.map_map]
    exact h.written
  subst hlabel
  refine ⟨rfl, ?_⟩
  have hlog : (R.add (.written b.1 u)).log dataWidthBytes = { R.log dataWidthBytes with
      left := (R.log dataWidthBytes).left ++ [(b.1, u)] } := rfl
  have hburstLen := BurstFunnel.burstLen_deq hf
  rw [Fifo.dropIf_eq_some] at hworkf
  rw [Fifo.enqIf_eq_some] at hdonef
  by_cases hlast : s.respCnt + 1 = rc
  · -- the last beat of the burst
    simp only [hlast, decide_true, if_true] at hworkf hdonef ⊢
    obtain ⟨x, hworkf⟩ := hworkf
    rw [hfirst] at hworkf
    have hsum : s.respCnt.toNat + 1 = b.2.fullBeats dataWidthBytes := by
      rw [← hcnt, hlast, hrc]
    have hrequested : ({ H with closed := H.closed ++ [b], opened := bs } :
        History dataWidth numServers).requested = H.requested := by
      simp [History.requested, hopen]
    refine ⟨{ H with closed := H.closed ++ [b], opened := bs }, { h with
      carries := by
        rw [hlog]
        exact hcarries
      loads := h.loads.trans (congrArg (· ++ s.loader.loadfC.items) hrequested.symm)
      requests := h.requests.trans (congrArg (List.map _) hrequested.symm)
      issued := fun k => (h.issued k).trans
        (congrArg (fun l => (List.filter _ l).map Prod.snd) hrequested.symm)
      donef := by
        rw [hdonef.2, h.donef, List.map_append]
        rfl
      workf := by
        rw [← (List.cons.inj hworkf).2, ← hws]
      written := ?_
      respCnt_zero := fun _ => rfl
      respCnt_lt := fun c hc => ?_
      register := fun k c hc => ?_ }⟩
    · have hwritten := h.written
      simp only [Record.add, List.length_append, List.length_singleton, List.map_append,
        List.sum_append, List.map_singleton, List.sum_singleton] at hwritten ⊢
      have hz : (0 : BitVec 8).toNat = 0 := rfl
      omega
    · have hc' : c ∈ R.loads := hmem c (by
        rw [hopen]
        exact List.mem_cons_of_mem _ (List.mem_of_mem_head? hc))
      exact (h.burst (h.mem_bursts hc')).1.1
    · rw [hburstLen]
      exact h.register k c hc
  · simp only [hlast, decide_false, Bool.false_eq_true, if_false, List.append_nil] at hworkf hdonef ⊢
    have hne : s.respCnt.toNat + 1 ≠ b.2.fullBeats dataWidthBytes := by
      intro he
      exact hlast (BitVec.eq_of_toNat_eq (by rw [hcnt, he, hrc]))
    refine ⟨H, { h with
      carries := by
        rw [hlog]
        exact hcarries
      donef := hdonef.2.trans h.donef
      workf := by
        rw [hworkf]
        exact h.workf
      written := ?_
      respCnt_zero := fun hnil => ?_
      respCnt_lt := fun c hc => ?_
      register := fun k c hc => ?_ }⟩
    · have hwritten := h.written
      simp only [Record.add, List.length_append, List.length_singleton, hcnt]
      omega
    · rw [hnil] at hopen
      cases hopen
    · rw [hopen, List.head?_cons, Option.mem_some_iff] at hc
      subst hc
      simp only [hcnt]
      omega
    · rw [hburstLen]
      exact h.register k c hc

/-- A step of the write engine. -/
lemma Writes.step (h : Writes P dataWidthBytes R s H) {a : Action dataWidth numServers}
    (hp : Puts P s a) (ha : Undisturbed dataWidthBytes s a) {es : List (Event dataWidth numServers)}
    (hs : (memwriteEngine dataWidth dataWidthBytes cmdQDepth numServers bufferSizeBeats).step s a =
      some (s', es)) : ∃ H', Writes P dataWidthBytes (es.foldl Record.add R) s' H' := by
  cases a with
  | put i c =>
    simp only [memwriteEngine, bind, pure, Option.bind_eq_some_iff, Option.some.injEq,
      Prod.mk.injEq] at hs
    obtain ⟨s₁, hput, rfl, rfl⟩ := hs
    exact h.put hp ha.1 ha.2 hput
  | get i =>
    simp only [memwriteEngine, bind, pure, Option.bind_eq_some_iff, Option.some.injEq,
      Prod.mk.injEq] at hs
    obtain ⟨l, hget, rfl, rfl⟩ := hs
    exact h.get hget
  | moveCmd n =>
    simp only [memwriteEngine, bind, pure, Option.bind_eq_some_iff, Option.some.injEq,
      Prod.mk.injEq] at hs
    obtain ⟨l, hmove, rfl, rfl⟩ := hs
    obtain ⟨hk, hload⟩ := h.keeps.moveCmd hmove
    exact ⟨_, h.silent hk hload⟩
  | storeCmd =>
    simp only [memwriteEngine, bind, pure, Option.bind_eq_some_iff, Prod.exists, Option.some.injEq,
      Prod.mk.injEq] at hs
    obtain ⟨i, l, hstore, rfl, rfl⟩ := hs
    obtain ⟨c, -, hload, hk⟩ := h.keeps.storeCmd hstore
    exact ⟨_, h.silent hk hload⟩
  | loadCtxtA =>
    simp only [memwriteEngine, bind, pure, Option.bind_eq_some_iff, Option.some.injEq,
      Prod.mk.injEq] at hs
    obtain ⟨l, hload, rfl, rfl⟩ := hs
    obtain ⟨hk, hload⟩ := h.keeps.loadCtxtA hload
    exact ⟨_, h.silent hk hload⟩
  | loadCtxtB =>
    simp only [memwriteEngine, bind, pure, Option.bind_eq_some_iff, Option.some.injEq,
      Prod.mk.injEq] at hs
    obtain ⟨l, hload, rfl, rfl⟩ := hs
    obtain ⟨hk, hload⟩ := h.keeps.loadCtxtB hload
    exact ⟨_, h.silent hk hload⟩
  | loadCtxtC =>
    simp only [memwriteEngine, bind, pure, Option.bind_eq_some_iff, Prod.exists, Option.some.injEq,
      Prod.mk.injEq] at hs
    obtain ⟨burst, s₁, hload, rfl, rfl⟩ := hs
    cases burst with
    | none =>
      simp only [MemwriteEngine.loadCtxtC, bind, pure, Option.bind_eq_some_iff, Prod.exists,
        Option.some.injEq, Prod.mk.injEq] at hload
      obtain ⟨l, burst, hload, f, hf, rfl, rfl⟩ := hload
      cases hf
      obtain ⟨hk, hload⟩ := h.keeps.loadCtxtC_none hload
      exact ⟨_, h.silent hk hload⟩
    | some b => exact h.loadBurst hload
  | pipe i v =>
    simp only [memwriteEngine, bind, pure, Option.bind_eq_some_iff, Option.some.injEq,
      Prod.mk.injEq] at hs
    obtain ⟨s₁, hpipe, rfl, rfl⟩ := hs
    exact h.pipe hpipe
  | inject i =>
    simp only [memwriteEngine, bind, pure, Option.bind_eq_some_iff, Prod.exists, Option.some.injEq,
      Prod.mk.injEq] at hs
    obtain ⟨v, s₁, hinject, rfl, rfl⟩ := hs
    exact h.inject hinject
  | moveData n =>
    simp only [memwriteEngine, bind, pure, Option.bind_eq_some_iff, Option.some.injEq,
      Prod.mk.injEq] at hs
    obtain ⟨f, hmove, rfl, rfl⟩ := hs
    exact ⟨_, h.funnel (h.carries.moveData hmove) (BurstFunnel.burstLen_moveData hmove)⟩
  | drainFunnel =>
    simp only [memwriteEngine, bind, pure, Option.bind_eq_some_iff, Option.some.injEq,
      Prod.mk.injEq] at hs
    obtain ⟨f, hdrain, rfl, rfl⟩ := hs
    obtain ⟨V, hV⟩ := h.carries.drainFunnel hdrain
    exact ⟨_, h.funnel hV (BurstFunnel.burstLen_drainFunnel hdrain)⟩
  | drainReq =>
    simp only [memwriteEngine, bind, pure, Option.bind_eq_some_iff, Option.some.injEq,
      Prod.mk.injEq] at hs
    obtain ⟨f, hdrain, rfl, rfl⟩ := hs
    obtain ⟨V, hV⟩ := h.carries.drainReq hdrain
    exact ⟨_, h.funnel hV (BurstFunnel.burstLen_drainReq hdrain)⟩
  | drainResp =>
    simp only [memwriteEngine, bind, pure, Option.bind_eq_some_iff, Option.some.injEq,
      Prod.mk.injEq] at hs
    obtain ⟨f, hdrain, rfl, rfl⟩ := hs
    obtain ⟨V, hV⟩ := h.carries.drainResp hdrain
    exact ⟨_, h.funnel hV (BurstFunnel.burstLen_drainResp hdrain)⟩
  | writeReq =>
    simp only [memwriteEngine, bind, pure, Option.bind_eq_some_iff, Prod.exists, Option.some.injEq,
      Prod.mk.injEq] at hs
    obtain ⟨i, r, s₁, hreq, rfl, rfl⟩ := hs
    exact h.writeReq hreq
  | writeData =>
    simp only [memwriteEngine, bind, pure, Option.bind_eq_some_iff, Prod.exists, Option.some.injEq,
      Prod.mk.injEq] at hs
    obtain ⟨i, j, v, s₁, hdata, rfl, rfl⟩ := hs
    obtain ⟨hji, hwrites⟩ := h.writeData hdata
    rw [if_pos hji]
    exact hwrites
  | writeDone =>
    simp only [memwriteEngine, bind, pure, Option.bind_eq_some_iff, Option.some.injEq,
      Prod.mk.injEq] at hs
    obtain ⟨s₁, hdone, rfl, rfl⟩ := hs
    exact h.writeDone hdone

/-- **A whole run**, in which all steps meet the condition. -/
theorem exists_writes (hd : 0 < cmdQDepth)
    {buff : BitVec (buffAddrSz numServers cmdQDepth) → MemengineCmd}
    {complBuff : BitVec (buffAddrSz 4 16) → BitVec dataWidth × Bool}
    {tr : List (Event dataWidth numServers)}
    (h : ((memwriteEngine dataWidth dataWidthBytes cmdQDepth numServers bufferSizeBeats).guard
      (Undisturbed dataWidthBytes)).Reaches
        (reset dataWidth cmdQDepth numServers bufferSizeBeats buff complBuff) tr s) :
    ∃ H, Writes (fun _ _ => True) dataWidthBytes (recordOf tr) s H := by
  refine h.invariant (I := fun tr s => ∃ H, Writes (fun _ _ => True) dataWidthBytes (recordOf tr) s H)
    ⟨_, writes_reset hd buff complBuff⟩ ?_
  rintro tr s a s' es ⟨H, ih⟩ hs
  obtain ⟨ha, hs⟩ := RuleSystem.guard_step.mp hs
  have hp : Puts (fun _ _ => True) s a := by cases a <;> trivial
  rw [recordOf_append]
  exact ih.step hp ha hs

/-! ## What has been given -/

/-- The number of beats of a request, by the shift of the engines. -/
def beats (dataWidthBytes : ℕ) (r : ObjectRequest) : ℕ :=
  (r.burstLen >>> beatShift dataWidthBytes).toNat

/-- The beats given are those of the bursts requested. -/
structure Written (dataWidthBytes : ℕ) (R : Record dataWidth numServers) : Prop where
  /-- The requests for a server are those of its commands in turn. -/
  requests : ∀ i, (R.requests.filter fun r => r.1 = i).map Prod.snd <+:
    (R.accepted i).flatMap fun c => c.bursts.map MemengineCmd.request
  /-- The beats given for each request are the next beats of the data of its server. -/
  data : R.written <+: deal R.piped (R.requests.map fun r => (r.1, beats dataWidthBytes r.2))
  /-- No beat came from the wrong server. -/
  oo : R.oo = []

/-- The requests are those of the bursts. -/
lemma Writes.requests_map (h : Writes P dataWidthBytes R s H) :
    (R.requests.map fun r => (r.1, beats dataWidthBytes r.2)) =
      H.requested.map fun b => (b.1, b.2.fullBeats dataWidthBytes) := by
  rw [h.requests, List.map_map]
  refine List.map_congr_left fun b hb => ?_
  have hmem : b ∈ R.loads := by
    rw [h.loads]
    exact List.mem_append_left _ hb
  simp only [Function.comp, beats, MemengineCmd.request, (h.burst (h.mem_bursts hmem)).2,
    MemengineCmd.fullBeats]

/-- No more beats have been given than were requested. -/
lemma Writes.written_le (h : Writes P dataWidthBytes R s H) :
    R.written.length ≤ (H.requested.map fun b => b.2.fullBeats dataWidthBytes).sum := by
  have hwritten := h.written
  rw [History.requested, ← List.append_assoc, List.map_append, List.sum_append]
  cases hopen : H.opened with
  | nil =>
    have h0 := h.respCnt_zero hopen
    omega
  | cons b bs =>
    have hlt := h.respCnt_lt b (by simp [hopen])
    rw [List.map_cons, List.sum_cons]
    omega

/-- **What an engine that agrees with its past has given to the memory.** -/
theorem Writes.written_of (h : Writes P dataWidthBytes R s H) : Written dataWidthBytes R where
  requests i := by
    have hissued : (R.requests.filter fun r => r.1 = i).map Prod.snd =
        (H.ledger.issued i).map MemengineCmd.request := by
      rw [h.requests, h.issued i, List.filter_map, List.map_map, List.map_map]
      rfl
    rw [hissued, ← List.map_flatMap]
    refine List.IsPrefix.map _ ?_
    rw [h.bursts_eq i, h.loadsOf_eq i, List.append_assoc]
    exact List.prefix_append _ _
  data := by
    have hcalls : (R.log dataWidthBytes).calls =
        (H.requested.map fun b => (b.1, b.2.fullBeats dataWidthBytes)) ++
          s.loader.loadfC.items.map fun b => (b.1, b.2.fullBeats dataWidthBytes) := by
      rw [Record.log, h.loads, List.map_append]
    rw [h.requests_map]
    refine h.carries.left_prefix_calls hcalls ?_ fun i => ?_
    · rw [List.map_map]
      exact h.written_le
    · rw [h.piped i]
      exact List.prefix_append _ _
  oo := h.oo

end MemwriteEngine

open MemwriteEngine

/-- **What is given to the memory.** In every run in which each command put is made of full bursts of 1 to
16 beats, and a command with bursts of another length is put on a server only when nothing of the server
is to come, the beats given for each request are the next of the data of its server.

**Proof sketch.** The register of a server holds the length of all its bursts to come, so that the burst
funnel is called with the number of beats that `workf` holds for the burst. What comes out of it is dealt
by these calls (`Carries.left_prefix_calls`), and has the labels of the bursts (`Carries.label_eq`). -/
theorem memwrite_written {dataWidth dataWidthBytes cmdQDepth numServers bufferSizeBeats : ℕ}
    (hd : 0 < cmdQDepth) (buff : BitVec (buffAddrSz numServers cmdQDepth) → MemengineCmd)
    (complBuff : BitVec (buffAddrSz 4 16) → BitVec dataWidth × Bool)
    {tr : List (MemwriteEngine.Event dataWidth numServers)}
    {s : MemwriteEngine dataWidth cmdQDepth numServers bufferSizeBeats}
    (h : ((memwriteEngine dataWidth dataWidthBytes cmdQDepth numServers bufferSizeBeats).guard
      (Undisturbed dataWidthBytes)).Reaches
        (reset dataWidth cmdQDepth numServers bufferSizeBeats buff complBuff) tr s) :
    Written dataWidthBytes (recordOf tr) := by
  obtain ⟨H, hH⟩ := exists_writes hd h
  exact hH.written_of

/-- Server 0 writes a burst of two beats and, when all of it is being drained, is given a command with
bursts of one beat; server 1 writes a beat in between. -/
def changedBursts :=
  ((memwriteEngine 32 4 2 2 4).guard (Undisturbed 4)).run
    (reset 32 2 2 4 (fun _ => ⟨0, 0, 0, 0⟩) fun _ => (0, false))
    [.put 0 ⟨5, 0x100, 8, 8⟩, .moveCmd (1, 0), .storeCmd, .put 1 ⟨6, 0x300, 4, 4⟩, .moveCmd (1, 1),
      .storeCmd, .pipe 0 1, .pipe 0 2, .pipe 1 9, .loadCtxtA, .loadCtxtB, .loadCtxtC, .writeReq,
      .loadCtxtA, .loadCtxtB, .loadCtxtC, .writeReq, .inject 0, .moveData (1, 0), .drainFunnel, .drainReq,
      .put 0 ⟨5, 0x200, 4, 4⟩, .drainResp, .writeData, .inject 0, .inject 1, .moveData (1, 1),
      .drainFunnel, .moveData (1, 0), .drainFunnel, .drainReq, .drainResp, .writeData, .drainReq,
      .drainResp, .writeData]

/-- The beats are those of the bursts requested. -/
theorem memwrite_written_changedBursts :
    (recordOf changedBursts.2).written = [(0, 1), (0, 2), (1, 9)] ∧
      Written 4 (recordOf changedBursts.2) := by
  have hreach : ((memwriteEngine 32 4 2 2 4).guard (Undisturbed 4)).Reaches
      (reset 32 2 2 4 (fun _ => ⟨0, 0, 0, 0⟩) fun _ => (0, false)) changedBursts.2 changedBursts.1 :=
    RuleSystem.reaches_run _ _
  exact ⟨by decide +kernel, memwrite_written (by decide) _ _ hreach⟩

/-- Server 0 is given a burst of two beats and, before it is handed on, a burst of one beat; server 1 is
given a burst of one beat. -/
def crossedBursts :=
  ((memwriteEngine 32 4 2 2 4).guard (Puts fun _ c => c.Grouped 4)).run
    (reset 32 2 2 4 (fun _ => ⟨0, 0, 0, 0⟩) fun _ => (0, false))
    [.put 0 ⟨5, 0x100, 8, 8⟩, .moveCmd (1, 0), .storeCmd, .put 0 ⟨5, 0x200, 4, 4⟩,
      .put 1 ⟨6, 0x300, 4, 4⟩, .moveCmd (1, 1), .storeCmd, .pipe 0 1, .pipe 0 2, .pipe 1 9,
      .loadCtxtA, .loadCtxtB, .loadCtxtC, .writeReq, .loadCtxtA, .loadCtxtB, .loadCtxtC, .writeReq,
      .inject 0, .inject 1, .moveData (1, 0), .drainFunnel, .moveData (1, 1), .drainFunnel,
      .drainReq, .drainResp, .writeData, .drainReq, .drainResp, .writeData]

/-- The second beat given for the burst of server 0 is that of server 1. -/
theorem not_written_crossedBursts :
    ((memwriteEngine 32 4 2 2 4).guard (Puts fun _ c => c.Grouped 4)).Reaches
        (reset 32 2 2 4 (fun _ => ⟨0, 0, 0, 0⟩) fun _ => (0, false)) crossedBursts.2 crossedBursts.1 ∧
      (recordOf crossedBursts.2).oo = [(0, 1)] ∧ ¬ Written 4 (recordOf crossedBursts.2) := by
  have hoo : (recordOf crossedBursts.2).oo = [(0, 1)] := by decide +kernel
  refine ⟨RuleSystem.reaches_run _ _, hoo, fun h => ?_⟩
  have hnone := h.oo
  rw [hoo] at hnone
  cases hnone

end Xbsv
