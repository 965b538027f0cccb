import Mathlib.Algebra.Order.BigOperators.Group.List
import Mathlib.Algebra.Order.Group.Nat
import Xbsv.Engine.ReadDelivery
import Xbsv.Rules.Drain

set_option relaxedAutoImplicit false
set_option autoImplicit false

/-!
# The credit of the read engine

The loader takes credit for a whole burst, whatever its length; reading a beat gives credit for one. So
the credit of a server and the beats it is owed never exceed the size of its buffer, and every beat that
comes out of the unfunnel finds room. But the last burst of a command may be shorter than the others,
and then the credit for what it lacks does not come back.

## Main definitions

* `Xbsv.MemreadEngine.owedBeats`, `Xbsv.MemreadEngine.pendingBeats` — the beats to come.
* `Xbsv.MemreadEngine.committed` — the beats of the bursts of a server that have not been read.

## Main results

* `Xbsv.memread_within_buffers` — the engine does not commit itself to more beats than its buffers hold.
* `Xbsv.memread_credits_conserved` — the credit, where no burst is short.
-/

namespace Xbsv

open Rules

namespace MemreadEngine

variable {dataWidth dataWidthBytes cmdQDepth numServers bufferSizeBeats : ℕ}

/-- The beats of the requests for server `i`. -/
def requestedBeats (dataWidthBytes : ℕ) (tr : List (Event dataWidth numServers)) (i : Fin numServers) :
    ℕ := ((requestsOf i tr).map fun r => r.burstLen.toNat / dataWidthBytes).sum

/-- The beats that the memory owes server `i`. -/
def owedBeats (dataWidthBytes : ℕ) (tr : List (Event dataWidth numServers)) (i : Fin numServers) : ℕ :=
  requestedBeats dataWidthBytes tr i - (givenTo i tr dataWidthBytes).length

/-- The beats of the burst of server `i` that waits in `loadf_c`. -/
def pendingBeats (dataWidthBytes : ℕ)
    (s : MemreadEngine dataWidth cmdQDepth numServers bufferSizeBeats) (i : Fin numServers) : ℕ :=
  ((s.loader.pending i).map fun c => c.bl.toNat / dataWidthBytes).sum

/-- The beats of the bursts of server `i` that have not been read from its pipe. -/
def committed (dataWidthBytes : ℕ) (tr : List (Event dataWidth numServers))
    (s : MemreadEngine dataWidth cmdQDepth numServers bufferSizeBeats) (i : Fin numServers) : ℕ :=
  requestedBeats dataWidthBytes tr i + pendingBeats dataWidthBytes s i -
    (MemreadEngine.dequeued i tr).length

variable {tr : List (Event dataWidth numServers)}
  {s : MemreadEngine dataWidth cmdQDepth numServers bufferSizeBeats}
  {H : History dataWidth numServers}

/-- The beats requested are those of the bursts taken from the loader. -/
lemma Delivers.requestedBeats_eq (h : Delivers dataWidthBytes tr s H) (i : Fin numServers) :
    requestedBeats dataWidthBytes tr i =
      ((H.ledger.issued i).map fun c => c.bl.toNat / dataWidthBytes).sum := by
  rw [requestedBeats, requestsOf, h.requests, h.issued i, List.filter_map, List.map_map, List.map_map,
    List.map_map]
  rfl

/-- The beats given are those that were read and those on their way. -/
lemma Delivers.length_givenTo (h : Delivers dataWidthBytes tr s H) (i : Fin numServers) :
    (givenTo i tr dataWidthBytes).length =
      (MemreadEngine.dequeued i tr).length + (s.arriving i).length := by
  have hflow := congrArg List.length (h.flow i)
  rw [List.length_map, List.length_append] at hflow
  rw [h.givenTo_eq i, List.length_map, hflow, h.dequeued i, List.length_map]

/-- The beats requested are those given and those owed. -/
lemma Delivers.requestedBeats_split (h : Delivers dataWidthBytes tr s H) (i : Fin numServers) :
    requestedBeats dataWidthBytes tr i = (givenTo i tr dataWidthBytes).length +
      (((H.owed.flatMap (MemreadEngine.labels dataWidthBytes)).drop s.respCnt.toNat).filter
        fun p => p.1 = i).length := by
  have hlabels := congrArg (fun ls => ((ls.filter fun p => p.1 = i).map Prod.snd).length) h.labels
  simp only [filter_labels, ← h.issued i, List.filter_append, List.map_append, List.length_append,
    List.length_flatMap, List.length_map] at hlabels
  have hsent : (givenTo i tr dataWidthBytes).length =
      ((H.sent.map Prod.fst).filter fun p => p.1 = i).length := by
    rw [h.givenTo_eq i, List.length_map, List.filter_map, List.length_map]
    rfl
  have hbeats : (H.ledger.issued i).map (fun c => (c.beatsOfBurst dataWidthBytes).length) =
      (H.ledger.issued i).map fun c => c.bl.toNat / dataWidthBytes :=
    List.map_congr_left fun c _ => by simp [MemengineCmd.beatsOfBurst, MemengineCmd.beatsFrom]
  rw [hbeats, ← h.requestedBeats_eq i, ← hsent] at hlabels
  exact hlabels

/-- The memory gives no more than was asked for. -/
lemma Delivers.givenTo_le (h : Delivers dataWidthBytes tr s H) (i : Fin numServers) :
    (givenTo i tr dataWidthBytes).length ≤ requestedBeats dataWidthBytes tr i := by
  have hsplit := h.requestedBeats_split i
  omega

/-- The credit taken is at least that for the beats of the bursts. -/
lemma beats_le_fullBeats {k : ℕ} (hw : dataWidthBytes = 2 ^ k) (cs : List MemengineCmd) :
    (cs.map fun c => c.bl.toNat / dataWidthBytes).sum ≤
      (cs.map (MemengineCmd.fullBeats dataWidthBytes)).sum := by
  refine List.sum_le_sum fun c _ => ?_
  rw [MemengineCmd.fullBeats_eq hw, MemengineCmd.bl_toNat]
  exact Nat.div_le_div_right (Nat.min_le_right _ _)

/-- Credit, beats to come and beats on their way, together, fit the buffer. -/
lemma Delivers.credit_add_le {k : ℕ} (hw : dataWidthBytes = 2 ^ k) (h : Delivers dataWidthBytes tr s H)
    (i : Fin numServers) : H.ledger.credit i + ((s.arriving i).length +
      owedBeats dataWidthBytes tr i + pendingBeats dataWidthBytes s i) ≤ bufferSizeBeats := by
  have hcredit := h.credit i
  have hle := beats_le_fullBeats hw (H.ledger.issued i ++ s.loader.pending i)
  rw [List.map_append, List.sum_append, ← h.requestedBeats_eq i] at hle
  have hgiven := h.length_givenTo i
  have hgle := h.givenTo_le i
  have hlen : (MemreadEngine.dequeued i tr).length = (H.out i).length := by
    rw [h.dequeued i, List.length_map]
  unfold owedBeats pendingBeats
  omega

/-! ## Beats find room -/

/-- The nodes of the unfunnel that are in use. -/
def dataNodes (numServers : ℕ) : Finset Node :=
  Finset.range (stages numServers (bitsPerCycle numServers) + 2) ×ˢ Finset.range numServers

/-- Beats are at nodes that are in use. -/
lemma mem_dataNodes {n : Node} {x : BitVec (tlog numServers) × (BitVec dataWidth × Bool)}
    (h : Directed numServers (bitsPerCycle numServers) n x) : n ∈ dataNodes numServers := by
  have hle := h.level_le
  rw [dataNodes, Finset.mem_product, Finset.mem_range, Finset.mem_range]
  exact ⟨by omega, h.node_lt⟩

/-- A beat at an output of the unfunnel finds room in the buffer. -/
lemma Delivers.room_buffer {k : ℕ} (hw : dataWidthBytes = 2 ^ k) (h : Delivers dataWidthBytes tr s H)
    {i : ℕ} (hi : i < numServers) (hne : s.readData.items (1, i) ≠ []) :
    (s.readData.items (0, i)).length < bufferSizeBeats := by
  have hlane0 : (s.readData.lane (dataPaths dataWidth numServers) i (0, i)).length =
      (s.readData.items (0, i)).length := by
    rw [Net.lane, List.length_map, List.filter_eq_self.mpr]
    intro x _
    simp [unfunnelPaths, outputOf]
  have hshift : tlog numServers ≤ tagShift numServers (bitsPerCycle numServers) 1 := by
    rw [tagShift, Nat.add_sub_cancel]
    exact tlog_le_stages (bitsPerCycle_pos numServers)
  have hlane1 : (s.readData.lane (dataPaths dataWidth numServers) i (1, i)).length =
      (s.readData.items (1, i)).length := by
    rw [Net.lane, List.length_map, List.filter_eq_self.mpr]
    intro x _
    have hzero : x.1.toNat / 2 ^ tagShift numServers (bitsPerCycle numServers) 1 = 0 :=
      Nat.div_eq_of_lt (Nat.lt_of_lt_of_le x.1.isLt (Nat.pow_le_pow_right (by omega) hshift))
    simp [unfunnelPaths, outputOf, hzero, Nat.sub_eq_zero_of_le hshift]
  have hpos1 : (dataPaths dataWidth numServers).pos i 1 = (1, i) := by
    simp [unfunnelPaths, Nat.sub_eq_zero_of_le hshift]
  have hsum : (s.readData.lane (dataPaths dataWidth numServers) i (0, i)).length +
      (s.readData.lane (dataPaths dataWidth numServers) i (1, i)).length ≤
        (s.arriving ⟨i, hi⟩).length := by
    rw [← hpos1]
    exact Net.length_lane_add_le (P := dataPaths dataWidth numServers) (a := 0) (b := 1)
      (by omega) (by omega)
  have hone := List.length_pos_of_ne_nil hne
  have hle := h.credit_add_le hw ⟨i, hi⟩
  omega

/-- A move of a beat. -/
def Action.IsMoveData : Action dataWidth numServers → Prop
  | .moveData _ => True
  | _ => False

instance (a : Action dataWidth numServers) : Decidable a.IsMoveData :=
  match a with
  | .moveData _ => inferInstanceAs (Decidable True)
  | .put _ _ | .get _ | .moveCmd _ | .storeCmd | .loadCtxtA | .loadCtxtB | .loadCtxtC | .readReq
  | .readData _ | .deq _ => inferInstanceAs (Decidable False)

/-- As long as there are beats that have not reached their buffers, one of them can move on. -/
lemma Delivers.exists_moveData {k : ℕ} (hw : dataWidthBytes = 2 ^ k)
    (h : Delivers dataWidthBytes tr s H) (hne : ∃ n : Node, 0 < n.1 ∧ s.readData.items n ≠ []) :
    ∃ n readData, s.readData.move (unfunnelRoute numServers (bitsPerCycle numServers)) n =
        some readData ∧
      s.readData.weight (dataNodes numServers) Prod.fst =
        readData.weight (dataNodes numServers) Prod.fst + 1 := by
  have hnodes : ∀ {n : Node}, s.readData.items n ≠ [] → n ∈ dataNodes numServers := by
    intro n hn
    obtain ⟨x, xs, hx⟩ := List.exists_cons_of_ne_nil hn
    exact mem_dataNodes (h.directed n x (by rw [hx]; exact List.mem_cons_self))
  refine Net.exists_move_down Prod.fst (fun _ => hnodes) (fun n x hx hpos => ?_) hne 0
  obtain ⟨m, y, hr⟩ := (h.directed n x hx).exists_route (bitsPerCycle_pos numServers) (bitsPerCycle_le numServers) hpos
  obtain ⟨hlevel, hd⟩ := (h.directed n x hx).route (bitsPerCycle_pos numServers) (bitsPerCycle_le numServers) hr
  -- there is room in a buffer because of the credit
  have hroom : m.1 = 0 → (s.readData.items m).length < dataCap bufferSizeBeats m := by
    intro hm0
    have hn1 : n.1 = 1 := by omega
    obtain ⟨j, i⟩ := n
    obtain rfl : j = 1 := hn1
    simp only [unfunnelRoute, if_true, Option.ite_none_right_eq_some, Option.some.injEq,
      Prod.mk.injEq] at hr
    obtain ⟨hi, rfl, -⟩ := hr
    exact h.room_buffer hw hi (List.ne_nil_of_mem hx)
  have hcap : 0 < dataCap bufferSizeBeats m := by
    rcases Nat.eq_zero_or_pos m.1 with hm0 | hm0
    · exact (Nat.zero_le _).trans_lt (hroom hm0)
    · simp [dataCap, unfunnelCap, hm0.ne']
  exact ⟨m, y, hr, mem_dataNodes hd, hlevel, hcap, hroom⟩

end MemreadEngine

open MemreadEngine

variable {dataWidth dataWidthBytes cmdQDepth numServers bufferSizeBeats : ℕ}

/-- **The read engine does not commit itself to more beats than its buffers hold**, if a beat is a power
of two bytes wide: for every server the beats in its buffer, in the unfunnel and in `read_data`, those
that the memory owes it, and those of its burst in `loadf_c` are together at most the size of a buffer.
So a beat is never held up by a server that does not read its pipe: by moves alone all beats get into
their buffers. -/
theorem memread_within_buffers {k : ℕ} (hw : dataWidthBytes = 2 ^ k) (hd : 0 < cmdQDepth)
    (buff : BitVec (buffAddrSz numServers cmdQDepth) → MemengineCmd)
    (tr : List (Event dataWidth numServers))
    (s : MemreadEngine dataWidth cmdQDepth numServers bufferSizeBeats)
    (h : ((memreadEngine dataWidth dataWidthBytes cmdQDepth numServers bufferSizeBeats).guard
      (Puts (MemengineCmd.Whole dataWidthBytes))).Reaches
        (reset dataWidth cmdQDepth numServers bufferSizeBeats buff) tr s) :
    (∀ i, (s.arriving i).length + owedBeats dataWidthBytes tr i + pendingBeats dataWidthBytes s i ≤
        bufferSizeBeats) ∧
      ∃ s', ((memreadEngine dataWidth dataWidthBytes cmdQDepth numServers bufferSizeBeats).guard
          fun _ a => a.IsMoveData).Reaches s [] s' ∧
        ∀ n : Node, 0 < n.1 → s'.readData.items n = [] := by
  obtain ⟨⟨H, hH⟩, -⟩ := exists_delivers hw hd (fun c hc => hc) h
  refine ⟨fun i => ?_, ?_⟩
  · have hle := hH.credit_add_le hw i
    omega
  · have hprogress : ∀ (tr' : List (Event dataWidth numServers))
        (s' : MemreadEngine dataWidth cmdQDepth numServers bufferSizeBeats),
        (∃ H, Delivers dataWidthBytes tr s' H) ∧ tr' = [] →
        (∀ n : Node, 0 < n.1 → s'.readData.items n = []) ∨ ∃ a s'' es,
          ((memreadEngine dataWidth dataWidthBytes cmdQDepth numServers bufferSizeBeats).guard
            fun _ a => a.IsMoveData).step s' a = some (s'', es) ∧
          ((∃ H, Delivers dataWidthBytes tr s'' H) ∧ tr' ++ es = []) ∧
          s''.readData.weight (dataNodes numServers) Prod.fst <
            s'.readData.weight (dataNodes numServers) Prod.fst := by
      rintro tr' s' ⟨⟨H', h'⟩, rfl⟩
      by_cases hne : ∃ n : Node, 0 < n.1 ∧ s'.readData.items n ≠ []
      · obtain ⟨n, readData, hmove, hweight⟩ := h'.exists_moveData hw hne
        refine .inr ⟨.moveData n, { s' with readData }, [], ?_, ⟨⟨H', h'.moveData hmove⟩, rfl⟩, ?_⟩
        · rw [RuleSystem.guard_step]
          exact ⟨trivial, by simp [memreadEngine, hmove]⟩
        · show readData.weight _ _ < _
          omega
      · left
        intro n hn
        by_contra hnn
        exact hne ⟨n, hn, hnn⟩
    obtain ⟨tr', s', hreach, ⟨-, htr⟩, hdone⟩ := RuleSystem.exists_reaches
      (I := fun tr' s' => (∃ H, Delivers dataWidthBytes tr s' H) ∧ tr' = [])
      (fun _ (s' : MemreadEngine dataWidth cmdQDepth numServers bufferSizeBeats) =>
        s'.readData.weight (dataNodes numServers) Prod.fst) hprogress ⟨⟨H, hH⟩, rfl⟩
    obtain rfl : tr' = [] := htr
    exact ⟨s', hreach, hdone⟩

/-- Two servers with a command each: three beats have come for the first burst of server 0 and the burst
of server 1, one of them has been read from each pipe. -/
def twoReads :=
  ((memreadEngine 32 4 2 2 4).guard (Puts (MemengineCmd.Whole 4))).run
    (reset 32 2 2 4 fun _ => ⟨0, 0, 0, 0⟩)
    [.put 0 ⟨5, 0x100, 8, 12⟩, .moveCmd (1, 0), .storeCmd, .put 1 ⟨6, 0x200, 4, 4⟩, .moveCmd (1, 1),
      .storeCmd, .loadCtxtA, .loadCtxtB, .loadCtxtC, .readReq, .loadCtxtA, .loadCtxtB, .loadCtxtC,
      .readReq, .readData 7, .moveData (2, 0), .moveData (1, 0), .readData 8, .readData 9,
      .moveData (2, 0), .moveData (2, 0), .moveData (1, 1), .deq 1, .get 1, .deq 0]

/-- One beat is on its way to server 0, and it can get into its buffer. -/
theorem memread_within_buffers_twoReads :
    (twoReads.1.arriving 0).length = 1 ∧
      (∀ i, (twoReads.1.arriving i).length + owedBeats 4 twoReads.2 i +
        pendingBeats 4 twoReads.1 i ≤ 4) ∧
      ∃ s', ((memreadEngine 32 4 2 2 4).guard fun _ a => a.IsMoveData).Reaches twoReads.1 [] s' ∧
        ∀ n : Node, 0 < n.1 → s'.readData.items n = [] :=
  ⟨by decide +kernel, memread_within_buffers (k := 2) rfl (by decide) _ _ _
    (RuleSystem.reaches_run _ _)⟩

/-- A beat of three bytes: the shift makes of a burst of one beat a burst of none, which needs no
credit. -/
def threeBytes :=
  ((memreadEngine 24 3 1 1 1).guard (Puts (MemengineCmd.Whole 3))).run
    (reset 24 1 1 1 fun _ => ⟨0, 0, 0, 0⟩)
    [.put 0 ⟨0, 0, 3, 6⟩, .storeCmd, .loadCtxtA, .loadCtxtB, .loadCtxtC, .readReq, .loadCtxtA,
      .loadCtxtB, .loadCtxtC, .readReq]

/-- Two beats are owed for a buffer of one. -/
theorem not_within_buffers_threeBytes :
    ((memreadEngine 24 3 1 1 1).guard (Puts (MemengineCmd.Whole 3))).Reaches
        (reset 24 1 1 1 fun _ => ⟨0, 0, 0, 0⟩) threeBytes.2 threeBytes.1 ∧
      ¬ (threeBytes.1.arriving 0).length + owedBeats 3 threeBytes.2 0 +
        pendingBeats 3 threeBytes.1 0 ≤ 1 :=
  ⟨RuleSystem.reaches_run _ _, by decide +kernel⟩

/-! ## Credits are conserved -/

namespace MemreadEngine

variable {tr : List (Event dataWidth numServers)}
  {s : MemreadEngine dataWidth cmdQDepth numServers bufferSizeBeats}
  {H : History dataWidth numServers}

/-- Where no burst is short, the credit taken is that for the beats of the bursts. -/
lemma Delivers.fullBeats_eq {k : ℕ} (hw : dataWidthBytes = 2 ^ k) (h : Delivers dataWidthBytes tr s H)
    {i : Fin numServers} (heven : ∀ c ∈ MemreadEngine.accepted i tr, c.Even dataWidthBytes) :
    ((H.ledger.issued i ++ s.loader.pending i).map (MemengineCmd.fullBeats dataWidthBytes)).sum =
      requestedBeats dataWidthBytes tr i + pendingBeats dataWidthBytes s i := by
  rw [h.requestedBeats_eq i, pendingBeats, ← List.sum_append, ← List.map_append]
  congr 1
  refine List.map_congr_left fun c hc => ?_
  have hmem : c ∈ (H.ledger.accepted i).flatMap MemengineCmd.bursts := by
    rw [h.keeps.flow i, ← List.append_assoc]
    exact List.mem_append_left _ hc
  rw [h.accepted i] at hmem
  obtain ⟨d, hd, hcd⟩ := List.mem_flatMap.mp hmem
  rw [MemengineCmd.fullBeats_eq hw, MemengineCmd.bl_of_dvd (heven d hd).whole.proper (heven d hd).dvd c hcd]

/-- Where no burst is short, what is not credit is committed. -/
lemma Delivers.credit_add_committed {k : ℕ} (hw : dataWidthBytes = 2 ^ k)
    (h : Delivers dataWidthBytes tr s H) {i : Fin numServers}
    (heven : ∀ c ∈ MemreadEngine.accepted i tr, c.Even dataWidthBytes) :
    H.ledger.credit i + committed dataWidthBytes tr s i = bufferSizeBeats := by
  have hcredit := h.credit i
  rw [h.fullBeats_eq hw heven] at hcredit
  have hgiven := h.length_givenTo i
  have hgle := h.givenTo_le i
  have hlen : (MemreadEngine.dequeued i tr).length = (H.out i).length := by
    rw [h.dequeued i, List.length_map]
  unfold committed
  omega

/-- If as many bursts are complete as there are, all beats have come. -/
lemma sum_le_of_completed {ns : List ℕ} {m : ℕ} (h : completed ns m = ns.length) : ns.sum ≤ m := by
  induction ns generalizing m with
  | nil => exact Nat.zero_le m
  | cons n ns ih =>
    simp only [completed, List.length_cons] at h
    split at h
    · have := ih (Nat.add_right_cancel h)
      rw [List.sum_cons]
      omega
    · omega

/-- No more bursts are complete than there are. -/
lemma completed_le (ns : List ℕ) (m : ℕ) : completed ns m ≤ ns.length := by
  induction ns generalizing m with
  | nil => exact Nat.le_refl 0
  | cons n ns ih =>
    simp only [completed, List.length_cons]
    split
    · exact Nat.succ_le_succ (ih _)
    · exact Nat.zero_le _

/-- The bursts of the commands have their beats. -/
lemma Delivers.sum_bursts (h : Delivers dataWidthBytes tr s H) (i : Fin numServers) :
    (((MemreadEngine.accepted i tr).flatMap MemengineCmd.bursts).map fun c =>
      c.bl.toNat / dataWidthBytes).sum =
        ((MemreadEngine.accepted i tr).map fun c => c.len.toNat / dataWidthBytes).sum := by
  rw [List.map_flatMap, List.flatMap_def, List.sum_flatten, List.map_map]
  congr 1
  exact List.map_congr_left fun c hc => (h.whole i c (by rwa [h.accepted i])).sum_bursts

/-- The bursts handed on are among those of the commands. -/
lemma Delivers.requestedBeats_add_le (h : Delivers dataWidthBytes tr s H) (i : Fin numServers) :
    requestedBeats dataWidthBytes tr i + pendingBeats dataWidthBytes s i ≤
      ((MemreadEngine.accepted i tr).map fun c => c.len.toNat / dataWidthBytes).sum := by
  have hbursts := congrArg (fun cs => (cs.map fun c => c.bl.toNat / dataWidthBytes).sum)
    (h.keeps.flow i)
  simp only [List.map_append, List.sum_append, ← h.requestedBeats_eq i] at hbursts
  rw [h.accepted i, h.sum_bursts i] at hbursts
  unfold pendingBeats
  omega

/-- When all commands of a server are complete all their beats have been read. -/
lemma Delivers.sum_le_dequeued (h : Delivers dataWidthBytes tr s H) {i : Fin numServers}
    (hall : responses i tr = (MemreadEngine.accepted i tr).length) :
    ((MemreadEngine.accepted i tr).map fun c => c.len.toNat / dataWidthBytes).sum ≤
      (MemreadEngine.dequeued i tr).length := by
  have hfin := h.finished_eq i
  have houtfs := h.keeps.outfs i
  have hans := h.answered i
  have hle := completed_le ((MemreadEngine.accepted i tr).map fun c => c.len.toNat / dataWidthBytes)
    (MemreadEngine.dequeued i tr).length
  rw [List.length_map] at hle
  exact sum_le_of_completed (by rw [List.length_map]; omega)

/-- When all commands of a server are complete nothing is committed. -/
lemma Delivers.committed_eq_zero (h : Delivers dataWidthBytes tr s H) {i : Fin numServers}
    (hall : responses i tr = (MemreadEngine.accepted i tr).length) :
    committed dataWidthBytes tr s i = 0 := by
  have hsum := h.sum_le_dequeued hall
  have hle := h.requestedBeats_add_le i
  unfold committed
  omega

end MemreadEngine

/-- **The credit of the read engine is conserved where no burst is short**: if a beat is a power of two
bytes wide and the length of every command is a multiple of that of its bursts, then in every state
reached `buffCap[i]` and the beats of the bursts of server `i` that have not been read make up the
buffer; and when all its commands are complete the server has its full credit. -/
theorem memread_credits_conserved {k : ℕ} (hw : dataWidthBytes = 2 ^ k) (hd : 0 < cmdQDepth)
    (hb : bufferSizeBeats < 2 ^ 16)
    (buff : BitVec (buffAddrSz numServers cmdQDepth) → MemengineCmd)
    (tr : List (Event dataWidth numServers))
    (s : MemreadEngine dataWidth cmdQDepth numServers bufferSizeBeats)
    (h : ((memreadEngine dataWidth dataWidthBytes cmdQDepth numServers bufferSizeBeats).guard
      (Puts (MemengineCmd.Even dataWidthBytes))).Reaches
        (reset dataWidth cmdQDepth numServers bufferSizeBeats buff) tr s) (i : Fin numServers) :
    (s.loader.buffCap i).toNat + committed dataWidthBytes tr s i = bufferSizeBeats ∧
      (responses i tr = (accepted i tr).length → (s.loader.buffCap i).toNat = bufferSizeBeats) := by
  obtain ⟨⟨H, hH⟩, heven⟩ := exists_delivers hw hd (fun c hc => hc.whole) h
  have hsum := hH.credit_add_committed hw (heven i)
  have hcap : (s.loader.buffCap i).toNat = H.ledger.credit i := by
    rw [hH.keeps.credit i, BitVec.toNat_ofNat, Nat.mod_eq_of_lt (by omega)]
  refine ⟨by omega, fun hall => ?_⟩
  have hzero := hH.committed_eq_zero hall
  omega

/-- A command of two bursts of two beats, half of it read. -/
def evenRead :=
  ((memreadEngine 32 4 1 1 4).guard (Puts (MemengineCmd.Even 4))).run (reset 32 1 1 4 fun _ => ⟨0, 0, 0, 0⟩)
    [.put 0 ⟨5, 0x100, 8, 16⟩, .storeCmd, .loadCtxtA, .loadCtxtB, .loadCtxtC, .readReq, .loadCtxtA,
      .loadCtxtB, .loadCtxtC, .readData 7, .moveData (1, 0), .deq 0]

/-- Three beats are committed and there is credit for one. -/
theorem memread_credits_conserved_evenRead :
    committed 4 evenRead.2 evenRead.1 0 = 3 ∧
      ((evenRead.1.loader.buffCap 0).toNat + committed 4 evenRead.2 evenRead.1 0 = 4 ∧
        (responses 0 evenRead.2 = (accepted 0 evenRead.2).length →
          (evenRead.1.loader.buffCap 0).toNat = 4)) :=
  ⟨by decide +kernel, memread_credits_conserved (k := 2) rfl (by decide) (by decide) _ _ _
    (RuleSystem.reaches_run _ _) 0⟩

/-- A command of one beat with bursts of two. -/
def shortRead :=
  ((memreadEngine 32 4 1 1 2).guard (Puts (MemengineCmd.Whole 4))).run
    (reset 32 1 1 2 fun _ => ⟨0, 0, 0, 0⟩)
    [.put 0 ⟨0, 0, 8, 4⟩, .storeCmd, .loadCtxtA, .loadCtxtB, .loadCtxtC, .readReq, .readData 7,
      .moveData (1, 0), .deq 0, .get 0]

/-- The command is complete and nothing is committed, but credit for one beat is gone for good. -/
theorem not_credits_conserved_shortRead :
    ((memreadEngine 32 4 1 1 2).guard (Puts (MemengineCmd.Whole 4))).Reaches
        (reset 32 1 1 2 fun _ => ⟨0, 0, 0, 0⟩) shortRead.2 shortRead.1 ∧
      ¬ ((shortRead.1.loader.buffCap 0).toNat + committed 4 shortRead.2 shortRead.1 0 = 2 ∧
        (responses 0 shortRead.2 = (accepted 0 shortRead.2).length →
          (shortRead.1.loader.buffCap 0).toNat = 2)) :=
  ⟨RuleSystem.reaches_run _ _, by decide +kernel⟩

end Xbsv
