import Mathlib.Algebra.Order.BigOperators.Group.Finset
import Mathlib.Data.Prod.Lex
import Mathlib.Order.WellFounded
import Xbsv.Engine.LoaderProgress
import Xbsv.Engine.ReadCredits

set_option relaxedAutoImplicit false
set_option autoImplicit false

/-!
# The read engine completes its commands

A read engine can always get done with the commands it has accepted, if their last bursts are not short
(`ReadCredits` says why that matters): in every state in which some command has not been carried out,
some rule or method leads on. What can be seen of a run is bounded by the commands accepted, so it is
enough to look at the steps in between, in which commands and beats move or the loader looks for the next
command.

## Main definitions

* `Xbsv.MemreadEngine.budget` — the most events there can be for the commands accepted.
* `Xbsv.MemreadEngine.Complete` — all commands of a server have been carried out.
* `Xbsv.MemreadEngine.rank` — how far an engine is from that.

## Main results

* `Xbsv.memread_delivers` — the engine delivers what it is told to, and gets done.
-/

namespace Xbsv

open Rules

namespace MemreadEngine

variable {dataWidth dataWidthBytes cmdQDepth numServers bufferSizeBeats : ℕ}
  {tr es : List (Event dataWidth numServers)}
  {s s' : MemreadEngine dataWidth cmdQDepth numServers bufferSizeBeats}
  {H : History dataWidth numServers}

/-! ## What can still happen -/

/-- A list is as long as its parts, one for each server, together. -/
lemma length_eq_sum_filter {β : Type} (f : β → Fin numServers) (l : List β) :
    l.length = ∑ i, (l.filter fun x => f x = i).length := by
  induction l with
  | nil => simp
  | cons x l ih =>
    have hone : ∀ i, ((x :: l).filter fun x => f x = i).length =
        (l.filter fun x => f x = i).length + if f x = i then 1 else 0 := by
      intro i
      by_cases hi : f x = i
      · simp [hi]
      · simp [hi]
    rw [Finset.sum_congr rfl fun i _ => hone i, Finset.sum_add_distrib, ← ih, Finset.sum_ite_eq,
      if_pos (Finset.mem_univ _), List.length_cons]

/-- The server that an event is about; a beat from the memory tells none. -/
def Event.server? : Event dataWidth numServers → Option (Fin numServers)
  | .accepted i _ | .stored i | .loaded i _ | .request i _ | .dequeued i _ | .response i => some i
  | .data _ => none

/-- The number of events about server `i`. -/
def eventsOf (i : Fin numServers) (tr : List (Event dataWidth numServers)) : ℕ :=
  (accepted i tr).length + stored i tr + (loaded i tr).length + (requestsOf i tr).length +
    (dequeued i tr).length + responses i tr

/-- One more event. -/
lemma eventsOf_cons (i : Fin numServers) (e : Event dataWidth numServers) :
    eventsOf i (e :: tr) = eventsOf i tr + if e.server? = some i then 1 else 0 := by
  cases e with
  | accepted j c | stored j | loaded j c | request j r | dequeued j d | response j =>
    by_cases hj : j = i
    · simp [eventsOf, Event.server?, accepted, Event.accepted?, stored, loaded, Event.loaded?,
        requestsOf, requests, Event.request?, dequeued, Event.dequeued?, responses, List.filterMap_cons,
        hj]
      try omega
    · simp [eventsOf, Event.server?, accepted, Event.accepted?, stored, loaded, Event.loaded?,
        requestsOf, requests, Event.request?, dequeued, Event.dequeued?, responses, List.filterMap_cons,
        hj]
  | data d =>
    simp [eventsOf, Event.server?, accepted, Event.accepted?, stored, loaded, Event.loaded?,
        requestsOf, requests, Event.request?, dequeued, Event.dequeued?, responses, List.filterMap_cons]

/-- A trace is as long as its parts together. -/
lemma length_trace (tr : List (Event dataWidth numServers)) :
    tr.length = ∑ i, eventsOf i tr + (given tr).length := by
  induction tr with
  | nil =>
    simp [eventsOf, accepted, stored, loaded, requestsOf, requests, dequeued, responses, given]
  | cons e tr ih =>
    rw [Finset.sum_congr rfl fun i _ => eventsOf_cons i e, Finset.sum_add_distrib, List.length_cons, ih]
    cases he : e.server? with
    | none =>
      cases e with
      | data d =>
        simp [given, Event.data?]
        omega
      | _ => cases he
    | some i =>
      have hgiven : given (e :: tr) = given tr := by
        cases e with
        | data d => cases he
        | _ => rfl
      rw [hgiven]
      simp
      omega

/-- The number of beats of the commands of server `i`. -/
def beatsOfAll (dataWidthBytes : ℕ) (tr : List (Event dataWidth numServers)) (i : Fin numServers) : ℕ :=
  ((accepted i tr).map fun c => c.len.toNat / dataWidthBytes).sum

/-- The most events there can be for the commands accepted. -/
def budget (dataWidthBytes : ℕ) (tr : List (Event dataWidth numServers)) : ℕ :=
  ∑ i, (3 * (accepted i tr).length + 2 * ((accepted i tr).flatMap MemengineCmd.bursts).length +
    2 * beatsOfAll dataWidthBytes tr i)

/-- The beats given for a server are among those of its commands. -/
lemma Delivers.givenTo_le_beatsOfAll (h : Delivers dataWidthBytes tr s H) (i : Fin numServers) :
    (givenTo i tr dataWidthBytes).length ≤ beatsOfAll dataWidthBytes tr i := by
  have h₁ := h.givenTo_le i
  have h₂ := h.requestedBeats_add_le i
  unfold beatsOfAll
  omega

/-- The events of one server are bounded by its commands. -/
lemma Delivers.eventsOf_le (h : Delivers dataWidthBytes tr s H) (i : Fin numServers) :
    eventsOf i tr ≤ 3 * (MemreadEngine.accepted i tr).length +
      2 * ((MemreadEngine.accepted i tr).flatMap MemengineCmd.bursts).length +
        beatsOfAll dataWidthBytes tr i := by
  have hflow := h.keeps.flow i
  have hproper := h.keeps.accepted_proper i
  rw [h.accepted i] at hflow hproper
  -- counting last bursts bounds the commands stored
  have hcount := congrArg (List.countP MemengineCmd.isLast) hflow
  rw [Loader.countP_isLast_flatMap hproper, List.countP_append, List.countP_append,
    Loader.countP_isLast_flatMap (h.keeps.proper i), List.length_append] at hcount
  have hremoved : removed i tr = (H.ledger.issued i).countP MemengineCmd.isLast +
      (s.loader.pending i).countP MemengineCmd.isLast := by
    rw [removed, h.loaded i, List.countP_append]
  have hlen := congrArg List.length hflow
  rw [List.length_append, List.length_append] at hlen
  have hloaded := congrArg List.length (h.loaded i)
  rw [List.length_append] at hloaded
  have hreq : (requestsOf i tr).length = (H.ledger.issued i).length := by
    rw [requestsOf, h.requests, h.issued i, List.filter_map, List.length_map, List.length_map,
      List.length_map]
    rfl
  have hstored := h.stored i
  have hgiven := h.length_givenTo i
  have hbeats := h.givenTo_le_beatsOfAll i
  have hfin := h.finished_eq i
  have houtfs := h.keeps.outfs i
  have hans := h.answered i
  have hle := completed_le ((MemreadEngine.accepted i tr).map fun c => c.len.toNat / dataWidthBytes)
    (MemreadEngine.dequeued i tr).length
  rw [List.length_map] at hle
  unfold eventsOf
  omega

/-- **A run is no longer than its commands allow.** -/
lemma Delivers.length_le_budget (h : Delivers dataWidthBytes tr s H) :
    tr.length ≤ budget dataWidthBytes tr := by
  have hgiven : (MemreadEngine.given tr).length = ∑ i, (givenTo i tr dataWidthBytes).length := by
    rw [h.given, List.length_map, length_eq_sum_filter (fun e => e.1.1) H.sent]
    refine Finset.sum_congr rfl fun i _ => ?_
    rw [h.givenTo_eq i, List.length_map]
  rw [length_trace, hgiven, ← Finset.sum_add_distrib]
  refine Finset.sum_le_sum fun i _ => ?_
  have h₁ := h.eventsOf_le i
  have h₂ := h.givenTo_le_beatsOfAll i
  omega

/-- The budget depends on the commands accepted alone. -/
lemma budget_congr (htr : ∀ i, accepted i es = []) :
    budget dataWidthBytes (tr ++ es) = budget dataWidthBytes tr := by
  refine Finset.sum_congr rfl fun i _ => ?_
  simp only [beatsOfAll, accepted_append, htr i, List.append_nil]

/-! ## Completion -/

/-- All commands of server `i` have been carried out. -/
structure Complete (dataWidthBytes : ℕ) (tr : List (Event dataWidth numServers)) (i : Fin numServers) :
    Prop where
  /-- All requests have been made. -/
  requests : requestsOf i tr =
    (MemreadEngine.accepted i tr).flatMap fun c => c.bursts.map MemengineCmd.request
  /-- The memory has given all beats. -/
  places : (givenTo i tr dataWidthBytes).map Prod.fst =
    (MemreadEngine.accepted i tr).flatMap fun c =>
      (c.beatsOf dataWidthBytes).map fun b => (b.pointer, b.offset)
  /-- All beats have been read from the pipe. -/
  pipe : MemreadEngine.dequeued i tr = (givenTo i tr dataWidthBytes).map Prod.snd
  /-- There has been a response to every command. -/
  responses : responses i tr = (MemreadEngine.accepted i tr).length

/-- A server that has responded to every command has carried it out. -/
lemma Delivers.complete (h : Delivers dataWidthBytes tr s H) {i : Fin numServers}
    (hspace : ∀ c ∈ MemreadEngine.accepted i tr, c.base.toNat + c.len.toNat < 2 ^ 40)
    (hall : MemreadEngine.responses i tr = (MemreadEngine.accepted i tr).length) :
    Complete dataWidthBytes tr i := by
  have hdel := h.delivered hspace
  have hread := h.sum_le_dequeued hall
  have hgiven := h.length_givenTo i
  have hgle := h.givenTo_le i
  have hrle := h.requestedBeats_add_le i
  refine ⟨?_, ?_, ?_, hall⟩
  · -- a burst that was not requested would lack beats
    have hreq : requestsOf i tr = (H.ledger.issued i).map MemengineCmd.request := by
      rw [requestsOf, h.requests, h.issued i, List.filter_map, List.map_map, List.map_map]
      rfl
    obtain ⟨rest, hrest⟩ := h.issued_prefix i
    have hsum := congrArg (fun cs => (cs.map fun c => c.bl.toNat / dataWidthBytes).sum) hrest
    simp only [List.map_append, List.sum_append, ← h.requestedBeats_eq i, h.sum_bursts i] at hsum
    have hnil : rest = [] := by
      cases rest with
      | nil => rfl
      | cons c rest =>
        have hmem : c ∈ (MemreadEngine.accepted i tr).flatMap MemengineCmd.bursts := by
          rw [← hrest]
          simp
        obtain ⟨d, hd, hcd⟩ := List.mem_flatMap.mp hmem
        have hpos : 0 < c.bl.toNat / dataWidthBytes :=
          ((h.whole i d (by rwa [h.accepted i])).bursts c hcd).bl.beats_pos
        rw [List.map_cons, List.sum_cons] at hsum
        omega
    rw [hnil, List.append_nil] at hrest
    rw [hreq, hrest, List.map_flatMap]
  · refine hdel.places.eq_of_length ?_
    have hlen : ∀ c : MemengineCmd, ((c.beatsOf dataWidthBytes).map fun b =>
        (b.pointer, b.offset)).length = c.len.toNat / dataWidthBytes := by
      intro c
      simp [MemengineCmd.beatsOf, MemengineCmd.beatsFrom]
    rw [List.length_map, List.length_flatMap, List.map_congr_left fun c _ => hlen c]
    omega
  · refine hdel.pipe.eq_of_length ?_
    rw [List.length_map]
    omega

/-! ## Progress -/

/-- How far an engine is from having carried out its commands: the events to come, then the way that
commands and beats have to go, then the way of the loader. -/
noncomputable def rank (dataWidthBytes : ℕ) (tr : List (Event dataWidth numServers))
    (s : MemreadEngine dataWidth cmdQDepth numServers bufferSizeBeats) : ℕ ×ₗ ℕ ×ₗ ℕ :=
  toLex (budget dataWidthBytes tr - tr.length,
    toLex (s.readData.weight (dataNodes numServers) Prod.fst +
      s.loader.cmdsIn.weight (Loader.cmdNodes numServers) Prod.fst, s.loader.rank))

/-- A step that can be seen, but not a new command, leads on. -/
lemma rank_lt_of_event (hes : es ≠ []) (hacc : ∀ i, accepted i es = [])
    (h' : Delivers dataWidthBytes (tr ++ es) s' H) :
    rank dataWidthBytes (tr ++ es) s' < rank dataWidthBytes tr s := by
  have hle := h'.length_le_budget
  have hpos := List.length_pos_of_ne_nil hes
  rw [budget_congr hacc, List.length_append] at hle
  rw [rank, rank, Prod.Lex.toLex_lt_toLex, budget_congr hacc, List.length_append]
  left
  show budget dataWidthBytes tr - _ < budget dataWidthBytes tr - _
  omega

/-- A step that cannot be seen leads on if a command or a beat moved. -/
lemma rank_lt_of_weight
    (hlt : s'.readData.weight (dataNodes numServers) Prod.fst +
        s'.loader.cmdsIn.weight (Loader.cmdNodes numServers) Prod.fst <
      s.readData.weight (dataNodes numServers) Prod.fst +
        s.loader.cmdsIn.weight (Loader.cmdNodes numServers) Prod.fst) :
    rank dataWidthBytes (tr ++ []) s' < rank dataWidthBytes tr s := by
  rw [List.append_nil, rank, rank, Prod.Lex.toLex_lt_toLex, Prod.Lex.toLex_lt_toLex]
  exact .inr ⟨rfl, .inl hlt⟩

/-- A step that cannot be seen leads on if the loader got on. -/
lemma rank_lt_of_loader {l : Loader cmdQDepth numServers} (hlt : l.rank < s.loader.rank)
    (hcmds : l.cmdsIn = s.loader.cmdsIn) :
    rank dataWidthBytes (tr ++ []) { s with loader := l } < rank dataWidthBytes tr s := by
  rw [List.append_nil, rank, rank, Prod.Lex.toLex_lt_toLex, Prod.Lex.toLex_lt_toLex]
  refine .inr ⟨rfl, .inr ⟨?_, hlt⟩⟩
  simp only [hcmds]

/-- A server for which nothing is under way has responded to all its commands. -/
lemma Delivers.responses_eq (h : Delivers dataWidthBytes tr s H) {i : Fin numServers}
    (hq : H.queues i = []) (hwait : s.loader.waiting i = []) (hpend : s.loader.pending i = [])
    (howed : H.owed = []) (harr : s.arriving i = []) (hout : (s.loader.outfs i).items = []) :
    responses i tr = (MemreadEngine.accepted i tr).length := by
  have hflow := h.keeps.flow i
  rw [hpend, hq, hwait, List.append_nil, List.flatMap_nil, List.append_nil, List.append_nil] at hflow
  have hlabels := h.labels
  rw [howed, List.flatMap_nil, List.drop_nil, List.append_nil] at hlabels
  -- all beats have been read, and their marks counted
  have hmarks : (H.out i).countP Prod.snd = (H.ledger.issued i).countP MemengineCmd.isLast := by
    have hsent := h.flow i
    rw [harr, List.append_nil] at hsent
    rw [← hsent, ← countP_beatsOfBurst fun c hc => h.issued_whole hc, h.issued i, ← filter_labels,
      hlabels, List.filter_map, List.map_map, List.countP_map, List.countP_map]
    rfl
  have hfin := h.finished i
  have houtfs := h.keeps.outfs i
  have hans := h.answered i
  have hcount := Loader.countP_isLast_flatMap (h.keeps.accepted_proper i)
  rw [hflow] at hcount
  rw [hout, List.length_nil, Nat.add_zero] at houtfs
  rw [← hans, ← h.accepted i]
  omega

/-- A network without elements has empty streams. -/
lemma stream_eq_nil {N α β K : Type} [DecidableEq K] {cap : N → ℕ} {P : Net.Paths N α β K}
    {net : Net cap α} (h : ∀ n, net.items n = []) (k : K) (d : ℕ) : net.stream P k d = [] := by
  induction d with
  | zero => rfl
  | succ d ih => rw [Net.stream, ih, Net.lane, h]; rfl

/-- A beat in a buffer can be read, unless a response waits to be fetched. -/
lemma exists_deq {i : Fin numServers} (hne : s.readData.items (0, i.val) ≠ [])
    (hout : (s.loader.outfs i).items = []) : ∃ d s', s.deq i = some (d, s') := by
  obtain ⟨⟨t, d, last⟩, xs, hx⟩ := List.exists_cons_of_ne_nil hne
  obtain ⟨readData, hdeq⟩ := Net.exists_deq hx
  have hfinish : ∃ l, (s.loader.giveCredit i).finishIf i last = some l := by
    cases last with
    | false => exact ⟨_, rfl⟩
    | true =>
      obtain ⟨outf, houtf, -⟩ := Fifo.exists_enq (q := s.loader.outfs i)
        (by rw [hout]; exact Nat.zero_lt_one) ()
      exact ⟨{ s.loader.giveCredit i with outfs := Function.update s.loader.outfs i outf },
        by simp only [Loader.finishIf, if_true, Loader.finish, Loader.giveCredit, houtf, bind, pure,
          Option.bind_some]⟩
  obtain ⟨l, hl⟩ := hfinish
  exact ⟨d, { s with loader := l, readData },
    by simp only [MemreadEngine.deq, hdeq, hl, bind, pure, Option.bind_some]⟩

/-- A beat that is owed can come from the memory, if `read_data` is empty. -/
lemma Delivers.exists_putReadData (h : Delivers dataWidthBytes tr s H) (howed : H.owed ≠ [])
    (hempty : s.readData.items (dataTop numServers) = []) (d : BitVec dataWidth) :
    ∃ s', s.putReadData d = some s' := by
  obtain ⟨b, bs, hb⟩ := List.exists_cons_of_ne_nil howed
  have hworkf := h.workf
  rw [hb, List.map_cons] at hworkf
  have hfirst : s.workf.first = some (entry dataWidthBytes b) :=
    Fifo.first_eq_some.mpr ⟨_, hworkf⟩
  obtain ⟨workf, hdeq, -⟩ := Fifo.exists_deq hworkf
  have hroom : ∀ last, ∃ readData, s.readData.enq (dataTop numServers)
      (BitVec.ofNat _ b.1, (d, last)) = some readData := fun last =>
    Net.exists_enq (by rw [hempty]; simp [dataTop, dataCap, unfunnelCap]) _
  by_cases hrc : s.respCnt + 1 = (entry dataWidthBytes b).1
  · obtain ⟨readData, henq⟩ := hroom (entry dataWidthBytes b).2.2
    refine ⟨{ s with respCnt := 0, workf, readData }, ?_⟩
    have henq' : s.readData.enq (dataTop numServers) (BitVec.ofNat _ (entry dataWidthBytes b).2.1,
      (d, (entry dataWidthBytes b).2.2)) = some readData := henq
    simp only [MemreadEngine.putReadData, hfirst, hrc, hdeq, henq', bind, pure, Option.bind_some, if_true]
  · obtain ⟨readData, henq⟩ := hroom false
    refine ⟨{ s with respCnt := s.respCnt + 1, readData }, ?_⟩
    have henq' : s.readData.enq (dataTop numServers) (BitVec.ofNat _ (entry dataWidthBytes b).2.1,
      (d, false)) = some readData := henq
    simp only [MemreadEngine.putReadData, hfirst, hrc, henq', bind, pure, Option.bind_some, if_false]

/-- A burst that waits can be requested, if nothing is owed. -/
lemma exists_getReadReq (hne : s.loader.loadfC.items ≠ []) (hworkf : s.workf.items = []) :
    ∃ r s', s.getReadReq dataWidthBytes = some (r, s') := by
  obtain ⟨⟨i, c⟩, bs, hb⟩ := List.exists_cons_of_ne_nil hne
  obtain ⟨loadfC, hdeq, -⟩ := Fifo.exists_deq hb
  obtain ⟨workf, henq, -⟩ := Fifo.exists_enq (q := s.workf) (by rw [hworkf]; exact Nat.zero_lt_succ _)
    (c.bl >>> beatShift dataWidthBytes, i, c.isLast)
  exact ⟨(i, c.request), { s with loader := { s.loader with loadfC }, workf },
    by simp only [getReadReq, Loader.takeBurst, hdeq, henq, bind, pure, Option.bind_some]⟩

/-- Full credit: when nothing is under way, every burst that fits the buffer has credit. -/
lemma Delivers.credit_full {k : ℕ} (hw : dataWidthBytes = 2 ^ k) (hb : bufferSizeBeats < 2 ^ 16)
    (h : Delivers dataWidthBytes tr s H) {i : Fin numServers}
    (heven : ∀ c ∈ MemreadEngine.accepted i tr, c.Even dataWidthBytes)
    (hpend : s.loader.pending i = []) (howed : H.owed = []) (harr : s.arriving i = []) :
    (s.loader.buffCap i).toNat = bufferSizeBeats := by
  have hsum := h.credit_add_committed hw heven
  have hgiven := h.length_givenTo i
  have hsplit := h.requestedBeats_split i
  rw [howed, List.flatMap_nil, List.drop_nil, List.filter_nil, List.length_nil] at hsplit
  have hzero : committed dataWidthBytes tr s i = 0 := by
    rw [harr, List.length_nil] at hgiven
    rw [committed, pendingBeats, hpend, List.map_nil, List.sum_nil]
    omega
  rw [h.keeps.credit i, BitVec.toNat_ofNat, Nat.mod_eq_of_lt (by omega)]
  omega

/-- The commands in the queues have bursts as long as those accepted. -/
lemma Delivers.fullBeats_le {k : ℕ} (hw : dataWidthBytes = 2 ^ k) (h : Delivers dataWidthBytes tr s H)
    {i : Fin numServers} {c : MemengineCmd} (hc : c ∈ H.queues i)
    (hfit : ∀ c ∈ MemreadEngine.accepted i tr, c.burstLen.toNat ≤ dataWidthBytes * bufferSizeBeats) :
    c.fullBeats dataWidthBytes ≤ bufferSizeBeats := by
  have hproper := h.keeps.proper i c (List.mem_append_left _ hc)
  have hmem : c ∈ (H.ledger.accepted i).flatMap MemengineCmd.bursts := by
    rw [h.keeps.flow i]
    refine List.mem_append_right _ (List.mem_append_right _ (List.mem_flatMap.mpr ⟨c, ?_, ?_⟩))
    · exact List.mem_append_left _ hc
    · exact MemengineCmd.self_mem_bursts hproper
  obtain ⟨d, hd, hcd⟩ := List.mem_flatMap.mp hmem
  have hlen := MemengineCmd.burstLen_of_mem_bursts (h.whole i d hd).proper c hcd
  have hfull : c.fullBeats dataWidthBytes = c.burstLen.toNat / dataWidthBytes :=
    WholeBurst.shift_toNat hw
  rw [h.accepted i] at hd
  rw [hfull, hlen]
  exact Nat.div_le_of_le_mul (hfit d hd)

/-- Some step other than a new command leads on. -/
def LeadsOn (dataWidthBytes : ℕ) (tr : List (Event dataWidth numServers))
    (s : MemreadEngine dataWidth cmdQDepth numServers bufferSizeBeats) : Prop :=
  ∃ a s' es, (memreadEngine dataWidth dataWidthBytes cmdQDepth numServers bufferSizeBeats).step s a =
      some (s', es) ∧ (∀ i, MemreadEngine.accepted i es = []) ∧
    (∃ H', Delivers dataWidthBytes (tr ++ es) s' H') ∧
    rank dataWidthBytes (tr ++ es) s' < rank dataWidthBytes tr s

/-- A step that can be seen. -/
lemma Delivers.leadsOn {k : ℕ} (hw : dataWidthBytes = 2 ^ k) (h : Delivers dataWidthBytes tr s H)
    (a : Action dataWidth numServers) (s' : MemreadEngine dataWidth cmdQDepth numServers bufferSizeBeats)
    (e : Event dataWidth numServers)
    (hs : (memreadEngine dataWidth dataWidthBytes cmdQDepth numServers bufferSizeBeats).step s a =
      some (s', [e])) (hputs : ∀ i, a.puts i = [])
    (ha : Puts (MemengineCmd.Whole dataWidthBytes) s a) : LeadsOn dataWidthBytes tr s := by
  have hacc : ∀ i, MemreadEngine.accepted i [e] = [] := fun i => by
    rw [accepted_of_step hs i, hputs i]
  obtain ⟨H', h'⟩ := h.step hw ha hs
  exact ⟨a, s', [e], hs, hacc, ⟨H', h'⟩, rank_lt_of_event (by simp) hacc h'⟩

/-- **As long as some command is not carried out, some step leads on.**

**Proof sketch.** Work from the end: fetch a response if there is one, else read a beat, else move a
beat, else take one from the memory, else make a request, else bring a command into its queue. If none
of this is possible then nothing is under way and every server has its full credit, so that the loader
can go on to the next burst. -/
lemma Delivers.exists_step {k m : ℕ} (hw : dataWidthBytes = 2 ^ k) (hn : numServers = 2 ^ m)
    (hb : bufferSizeBeats < 2 ^ 16) (h : Delivers dataWidthBytes tr s H)
    (heven : ∀ i, ∀ c ∈ MemreadEngine.accepted i tr, c.Even dataWidthBytes)
    (hfit : ∀ i, ∀ c ∈ MemreadEngine.accepted i tr,
      c.burstLen.toNat ≤ dataWidthBytes * bufferSizeBeats) :
    (∀ i, responses i tr = (MemreadEngine.accepted i tr).length) ∨ LeadsOn dataWidthBytes tr s := by
  by_cases hout : ∃ i, (s.loader.outfs i).items ≠ []
  · obtain ⟨i, hi⟩ := hout
    obtain ⟨u, us, hu⟩ := List.exists_cons_of_ne_nil hi
    obtain ⟨outf, hdeq, -⟩ := Fifo.exists_deq hu
    refine .inr (h.leadsOn hw (.get i) { s with loader := { s.loader with
        outfs := Function.update s.loader.outfs i outf
        outs0 := Function.update s.loader.outs0 i (s.loader.outs0 i - 1) } } (.response i) ?_
      (fun j => rfl) trivial)
    simp only [memreadEngine, Loader.get, hdeq, bind, pure, Option.bind_some]
  simp only [not_exists, not_not] at hout
  by_cases hbuf : ∃ i : Fin numServers, s.readData.items (0, i.val) ≠ []
  · obtain ⟨i, hi⟩ := hbuf
    obtain ⟨d, s', hdeq⟩ := exists_deq hi (hout i)
    exact .inr (h.leadsOn hw (.deq i) s' (.dequeued i d)
      (by simp only [memreadEngine, hdeq, bind, pure, Option.bind_some]) (fun j => rfl) trivial)
  by_cases hmove : ∃ n : Node, 0 < n.1 ∧ s.readData.items n ≠ []
  · obtain ⟨n, readData, hmove, hweight⟩ := h.exists_moveData hw hmove
    refine .inr ⟨.moveData n, { s with readData }, [],
      by simp only [memreadEngine, hmove, bind, pure, Option.bind_some], fun i => rfl, ⟨H, ?_⟩,
      rank_lt_of_weight ?_⟩
    · rw [List.append_nil]
      exact h.moveData hmove
    · show readData.weight _ _ + s.loader.cmdsIn.weight _ _ < _
      omega
  -- nothing is on its way to the pipes
  have hempty : ∀ n, s.readData.items n = [] := by
    intro n
    by_contra hne
    rcases Nat.eq_zero_or_pos n.1 with h0 | h0
    · obtain ⟨x, xs, hx⟩ := List.exists_cons_of_ne_nil hne
      have hd := h.directed n x (by rw [hx]; exact List.mem_cons_self)
      obtain ⟨j, i⟩ := n
      obtain rfl : j = 0 := h0
      exact hbuf ⟨⟨i, hd.node_lt⟩, hne⟩
    · exact hmove ⟨n, h0, hne⟩
  have harr : ∀ i, s.arriving i = [] := fun i => stream_eq_nil hempty i.val _
  by_cases howed : H.owed ≠ []
  · obtain ⟨s', hput⟩ := h.exists_putReadData howed (hempty _) 0
    exact .inr (h.leadsOn hw (.readData 0) s' (.data 0)
      (by simp only [memreadEngine, hput, bind, pure, Option.bind_some]) (fun j => rfl) trivial)
  rw [ne_eq, not_not] at howed
  by_cases hloadfC : s.loader.loadfC.items ≠ []
  · have hworkf : s.workf.items = [] := by rw [h.workf, howed, List.map_nil]
    obtain ⟨⟨i, r⟩, s', hreq⟩ : ∃ r s', s.getReadReq dataWidthBytes = some (r, s') :=
      exists_getReadReq hloadfC hworkf
    exact .inr (h.leadsOn hw .readReq s' (.request i r)
      (by simp only [memreadEngine, hreq, bind, pure, Option.bind_some]) (fun j => rfl) trivial)
  rw [ne_eq, not_not] at hloadfC
  have hpend : ∀ i, s.loader.pending i = [] := fun i => by rw [Loader.pending, hloadfC]; rfl
  by_cases hcmds : ∃ n, s.loader.cmdsIn.items n ≠ []
  · rcases h.keeps.exists_command hcmds with ⟨i, l, hstore⟩ | ⟨n, l, hmoveCmd, hweight⟩
    · exact .inr (h.leadsOn hw .storeCmd { s with loader := l } (.stored i)
        (by simp only [memreadEngine, hstore, bind, pure, Option.bind_some]) (fun j => rfl) trivial)
    · refine .inr ⟨.moveCmd n, { s with loader := l }, [],
        by simp only [memreadEngine, hmoveCmd, bind, pure, Option.bind_some], fun i => rfl, ⟨H, ?_⟩,
        rank_lt_of_weight ?_⟩
      · rw [List.append_nil]
        exact h.silent (h.keeps.moveCmd hmoveCmd)
      · show s.readData.weight _ _ + l.cmdsIn.weight _ _ < _
        omega
  simp only [not_exists, not_not] at hcmds
  have hwait : ∀ i, s.loader.waiting i = [] := fun i => stream_eq_nil hcmds i _
  by_cases hq : ∃ i, H.queues i ≠ []
  · right
    have hcredit : ∀ i c cs, H.queues i = c :: cs →
        c.fullBeats dataWidthBytes ≤ (s.loader.buffCap i).toNat := by
      intro i c cs hc
      rw [h.credit_full hw hb (heven i) (hpend i) howed (harr i)]
      exact h.fullBeats_le hw (by rw [hc]; exact List.mem_cons_self) (hfit i)
    rcases h.keeps.exists_load hn hq hloadfC hcredit with ⟨l, hA, hlt, hsame⟩ | ⟨l, hB, hlt, hsame⟩ |
      ⟨l, hC, hlt, hsame⟩ | ⟨l, ⟨i, c⟩, hC⟩
    · refine ⟨.loadCtxtA, { s with loader := l }, [],
        by simp only [memreadEngine, hA, bind, pure, Option.bind_some], fun i => rfl, ⟨H, ?_⟩,
        rank_lt_of_loader hlt hsame⟩
      rw [List.append_nil]
      exact h.silent (h.keeps.loadCtxtA hA)
    · refine ⟨.loadCtxtB, { s with loader := l }, [],
        by simp only [memreadEngine, hB, bind, pure, Option.bind_some], fun i => rfl, ⟨H, ?_⟩,
        rank_lt_of_loader hlt hsame⟩
      rw [List.append_nil]
      exact h.silent (h.keeps.loadCtxtB hB)
    · refine ⟨.loadCtxtC, { s with loader := l }, [],
        by simp only [memreadEngine, hC, bind, pure, Option.bind_some, Option.toList_none,
          List.map_nil], fun i => rfl, ⟨H, ?_⟩,
        rank_lt_of_loader hlt hsame⟩
      rw [List.append_nil]
      exact h.silent (h.keeps.loadCtxtC_none hC)
    · exact h.leadsOn hw .loadCtxtC { s with loader := l } (.loaded i c)
        (by simp only [memreadEngine, hC, bind, pure, Option.bind_some, Option.toList_some,
          List.map_singleton]) (fun j => rfl) trivial
  · simp only [not_exists, not_not] at hq
    exact .inl fun i => h.responses_eq (hq i) (hwait i) (hpend i) howed (harr i) (hout i)

end MemreadEngine

/-- A command that a read engine serves: whole, within the address space of its object, and with bursts
that fit the buffer. -/
structure MemengineCmd.Served (dataWidthBytes bufferSizeBeats : ℕ) (c : MemengineCmd) : Prop where
  whole : c.Whole dataWidthBytes
  space : c.base.toNat + c.len.toNat < 2 ^ 40
  fits : c.burstLen.toNat ≤ dataWidthBytes * bufferSizeBeats

instance (dataWidthBytes bufferSizeBeats : ℕ) (c : MemengineCmd) :
    Decidable (c.Served dataWidthBytes bufferSizeBeats) :=
  decidable_of_iff (c.Whole dataWidthBytes ∧ c.base.toNat + c.len.toNat < 2 ^ 40 ∧
      c.burstLen.toNat ≤ dataWidthBytes * bufferSizeBeats)
    ⟨fun h => ⟨h.1, h.2.1, h.2.2⟩, fun h => ⟨h.whole, h.space, h.fits⟩⟩

open MemreadEngine

variable {dataWidth dataWidthBytes cmdQDepth numServers bufferSizeBeats : ℕ}

/-- **The read engine delivers what it is told to**, if a beat is a power of two bytes wide and the
number of servers is a power of two: at every moment of a run the requests, the beats read and the
responses of a server are the first of those that its commands ask for. And it gets done: if no last
burst is short, then from every state reached there is a way, without new commands, to a state where
all commands have been carried out. -/
theorem memread_delivers {k m : ℕ} (hw : dataWidthBytes = 2 ^ k) (hn : numServers = 2 ^ m)
    (hd : 0 < cmdQDepth) (hb : bufferSizeBeats < 2 ^ 16)
    (buff : BitVec (buffAddrSz numServers cmdQDepth) → MemengineCmd)
    (tr : List (Event dataWidth numServers))
    (s : MemreadEngine dataWidth cmdQDepth numServers bufferSizeBeats)
    (h : ((memreadEngine dataWidth dataWidthBytes cmdQDepth numServers bufferSizeBeats).guard
      (Puts (MemengineCmd.Served dataWidthBytes bufferSizeBeats))).Reaches
        (reset dataWidth cmdQDepth numServers bufferSizeBeats buff) tr s) :
    (∀ i, Delivered dataWidthBytes tr s i) ∧
      ((∀ i, ∀ c ∈ accepted i tr, c.burstLen.toNat ∣ c.len.toNat) →
        ∃ tr' s', (memreadEngine dataWidth dataWidthBytes cmdQDepth numServers
            bufferSizeBeats).Reaches s tr' s' ∧ (∀ i, accepted i tr' = []) ∧
          ∀ i, Complete dataWidthBytes (tr ++ tr') i) := by
  obtain ⟨⟨H, hH⟩, hserved⟩ := exists_delivers hw hd (fun c hc => hc.whole) h
  refine ⟨fun i => hH.delivered fun c hc => (hserved i c hc).space, fun hdvd => ?_⟩
  have hprogress : ∀ (tr₁ : List (Event dataWidth numServers))
      (s₁ : MemreadEngine dataWidth cmdQDepth numServers bufferSizeBeats),
      (∃ H, Delivers dataWidthBytes tr₁ s₁ H) ∧ (∀ i, accepted i tr₁ = accepted i tr) →
      (∀ i, responses i tr₁ = (accepted i tr₁).length) ∨ ∃ a s' es,
        (memreadEngine dataWidth dataWidthBytes cmdQDepth numServers bufferSizeBeats).step s₁ a =
            some (s', es) ∧
          ((∃ H, Delivers dataWidthBytes (tr₁ ++ es) s' H) ∧
            ∀ i, accepted i (tr₁ ++ es) = accepted i tr) ∧
          rank dataWidthBytes (tr₁ ++ es) s' < rank dataWidthBytes tr₁ s₁ := by
    rintro tr₁ s₁ ⟨⟨H₁, h₁⟩, hacc⟩
    have hstep := h₁.exists_step hw hn hb
      (fun i c hc => by
        rw [hacc i] at hc
        exact ⟨(hserved i c hc).whole, hdvd i c hc⟩)
      (fun i c hc => by
        rw [hacc i] at hc
        exact (hserved i c hc).fits)
    rcases hstep with hdone | ⟨a, s', es, hs, hnone, hdel, hlt⟩
    · exact .inl hdone
    · refine .inr ⟨a, s', es, hs, ⟨hdel, fun i => ?_⟩, hlt⟩
      rw [accepted_append, hnone i, List.append_nil, hacc i]
  obtain ⟨tr', s', hreach, ⟨⟨H', h'⟩, hacc⟩, hdone⟩ := RuleSystem.exists_reaches
    (I := fun tr₁ s₁ => (∃ H, Delivers dataWidthBytes tr₁ s₁ H) ∧
      ∀ i, accepted i tr₁ = accepted i tr)
    (rank dataWidthBytes) hprogress ⟨⟨H, hH⟩, fun i => rfl⟩
  refine ⟨tr', s', hreach, fun i => ?_, fun i => h'.complete (fun c hc => ?_) (hdone i)⟩
  · have hi := hacc i
    rw [accepted_append] at hi
    exact List.append_right_eq_self.mp hi
  · rw [hacc i] at hc
    exact (hserved i c hc).space

/-- Two servers with a command each; the command of server 1 has been carried out. -/
def servedReads :=
  ((memreadEngine 32 4 2 2 4).guard (Puts (MemengineCmd.Served 4 4))).run
    (reset 32 2 2 4 fun _ => ⟨0, 0, 0, 0⟩)
    [.put 0 ⟨5, 0x100, 8, 16⟩, .moveCmd (1, 0), .storeCmd, .put 1 ⟨6, 0x200, 4, 4⟩, .moveCmd (1, 1),
      .storeCmd, .loadCtxtA, .loadCtxtB, .loadCtxtC, .readReq, .loadCtxtA, .loadCtxtB, .loadCtxtC,
      .readReq, .readData 7, .moveData (2, 0), .moveData (1, 0), .readData 8, .readData 9,
      .moveData (2, 0), .moveData (2, 0), .moveData (1, 1), .deq 1, .get 1, .deq 0]

/-- Server 0 has read a beat, server 1 has completed its command, and server 0 can complete its own. -/
theorem memread_delivers_servedReads :
    dequeued 0 servedReads.2 = [7] ∧ responses 1 servedReads.2 = 1 ∧
      (∀ i, Delivered 4 servedReads.2 servedReads.1 i) ∧
      ∃ tr' s', (memreadEngine 32 4 2 2 4).Reaches servedReads.1 tr' s' ∧
        (∀ i, accepted i tr' = []) ∧ ∀ i, Complete 4 (servedReads.2 ++ tr') i := by
  have hreach := memread_delivers (k := 2) (m := 1) rfl rfl (by decide) (by decide)
    (fun _ => ⟨0, 0, 0, 0⟩) servedReads.2 servedReads.1 (RuleSystem.reaches_run _ _)
  exact ⟨by decide +kernel, by decide +kernel, hreach.1, hreach.2 (by decide +kernel)⟩

/-- A beat of three bytes: the shift makes of each burst of one beat a burst of none, which does not end
before 256 beats have come. -/
def threeByteReads :=
  ((memreadEngine 24 3 1 2 2).guard (Puts (MemengineCmd.Served 3 2))).run
    (reset 24 1 2 2 fun _ => ⟨0, 0, 0, 0⟩)
    [.put 0 ⟨0, 0, 3, 3⟩, .moveCmd (1, 0), .storeCmd, .put 1 ⟨0, 0, 3, 3⟩, .moveCmd (1, 1), .storeCmd,
      .loadCtxtA, .loadCtxtB, .loadCtxtC, .readReq, .loadCtxtA, .loadCtxtB, .loadCtxtC, .readReq,
      .readData 7, .moveData (2, 0), .moveData (1, 0), .readData 8, .moveData (2, 0), .moveData (1, 0),
      .deq 0, .deq 0]

/-- The beat of server 1 comes out of the pipe of server 0. -/
theorem not_delivered_threeByteReads :
    ((memreadEngine 24 3 1 2 2).guard (Puts (MemengineCmd.Served 3 2))).Reaches
        (reset 24 1 2 2 fun _ => ⟨0, 0, 0, 0⟩) threeByteReads.2 threeByteReads.1 ∧
      ¬ Delivered 3 threeByteReads.2 threeByteReads.1 0 :=
  ⟨RuleSystem.reaches_run _ _, fun h => absurd h.pipe (by decide +kernel)⟩

end Xbsv
