import Xbsv.Engine.Ledger
import Xbsv.Engine.MemreadEngine

set_option relaxedAutoImplicit false
set_option autoImplicit false

/-!
# What the read engine delivers

The state of a read engine against its past. Every burst requested has a list of beats, each with its
place in the memory and a mark on the last beat of a command. The beats of the bursts in the order of the
requests are those that came from the memory, followed by those that are owed; and for each server the
beats that came are those read from its pipe, followed by those on their way. From that and from what the
loader keeps follows what has been delivered.

## Main definitions

* `Xbsv.MemreadEngine.History`, `Xbsv.MemreadEngine.Delivers` — the past, and that a state agrees with it.
* `Xbsv.MemreadEngine.Delivered` — what holds of a server at every moment.

## Main results

* `Xbsv.MemreadEngine.Delivers.step` — one step of the engine.
* `Xbsv.MemreadEngine.exists_delivers` — a whole run.
* `Xbsv.MemreadEngine.Delivers.delivered` — what has been delivered.
-/

namespace Xbsv

open Rules

namespace MemreadEngine

section Traces

variable {dataWidth numServers : ℕ} (i : Fin numServers) (tr es : List (Event dataWidth numServers))

@[simp] lemma accepted_append : accepted i (tr ++ es) = accepted i tr ++ accepted i es :=
  List.filterMap_append

@[simp] lemma requests_append : requests (tr ++ es) = requests tr ++ requests es :=
  List.filterMap_append

@[simp] lemma given_append : given (tr ++ es) = given tr ++ given es := List.filterMap_append

@[simp] lemma dequeued_append : dequeued i (tr ++ es) = dequeued i tr ++ dequeued i es :=
  List.filterMap_append

@[simp] lemma responses_append : responses i (tr ++ es) = responses i tr + responses i es :=
  List.count_append

@[simp] lemma stored_append : stored i (tr ++ es) = stored i tr + stored i es := List.count_append

@[simp] lemma loaded_append : loaded i (tr ++ es) = loaded i tr ++ loaded i es :=
  List.filterMap_append

@[simp] lemma removed_append : removed i (tr ++ es) = removed i tr + removed i es := by
  rw [removed, loaded_append, List.countP_append]
  rfl

end Traces

/-- The streams between `readData` and the pipes: the beats for each pipe. -/
abbrev dataPaths (dataWidth numServers : ℕ) :
    Net.Paths Node (BitVec (tlog numServers) × (BitVec dataWidth × Bool)) (BitVec dataWidth × Bool) ℕ :=
  unfunnelPaths numServers (bitsPerCycle numServers)

section

variable {dataWidth cmdQDepth numServers bufferSizeBeats : ℕ}

/-- The beats on their way to pipe `i`, with their marks, oldest first. -/
def arriving (s : MemreadEngine dataWidth cmdQDepth numServers bufferSizeBeats) (i : Fin numServers) :
    List (BitVec dataWidth × Bool) :=
  s.readData.stream (dataPaths dataWidth numServers) i
    (stages numServers (bitsPerCycle numServers) + 2)

/-- The beats of a burst, with its server. -/
def labels (dataWidthBytes : ℕ) (b : Fin numServers × MemengineCmd) : List (Fin numServers × MemengineCmd.Beat) :=
  (b.2.beatsOfBurst dataWidthBytes).map fun p => (b.1, p)

/-- The entry of `workf` for a burst. -/
def entry (dataWidthBytes : ℕ) (b : Fin numServers × MemengineCmd) : BitVec 8 × Fin numServers × Bool :=
  (b.2.bl >>> beatShift dataWidthBytes, b.1, b.2.isLast)

end

/-- The past of a read engine that its state does not tell. -/
structure History (dataWidth numServers : ℕ) where
  ledger : Ledger numServers
  /-- What is left of the commands in the queues. -/
  queues : Fin numServers → List MemengineCmd
  /-- All bursts requested. -/
  bursts : List (Fin numServers × MemengineCmd)
  /-- The bursts that the memory has not answered in full. -/
  owed : List (Fin numServers × MemengineCmd)
  /-- The beats that came from the memory. -/
  sent : List ((Fin numServers × MemengineCmd.Beat) × BitVec dataWidth)
  /-- The beats read from the pipes, with their marks. -/
  out : Fin numServers → List (BitVec dataWidth × Bool)

variable {dataWidth dataWidthBytes cmdQDepth numServers bufferSizeBeats : ℕ}

/-- The state of a read engine agrees with its past. -/
structure Delivers (dataWidthBytes : ℕ) (tr : List (Event dataWidth numServers))
    (s : MemreadEngine dataWidth cmdQDepth numServers bufferSizeBeats)
    (H : History dataWidth numServers) : Prop where
  keeps : s.loader.Keeps dataWidthBytes H.ledger H.queues
  accepted : ∀ i, H.ledger.accepted i = accepted i tr
  whole : ∀ i, ∀ c ∈ H.ledger.accepted i, c.Whole dataWidthBytes
  answered : ∀ i, H.ledger.answered i = responses i tr
  stored : ∀ i, stored i tr = removed i tr + (H.queues i).length
  loaded : ∀ i, loaded i tr = H.ledger.issued i ++ s.loader.pending i
  requests : requests tr = H.bursts.map fun b => (b.1, b.2.request)
  issued : ∀ i, H.ledger.issued i = (H.bursts.filter fun b => b.1 = i).map Prod.snd
  given : given tr = H.sent.map Prod.snd
  workf : s.workf.items = H.owed.map (entry dataWidthBytes)
  owed_whole : ∀ b ∈ H.owed, b.2.Whole dataWidthBytes
  respCnt_zero : H.owed = [] → s.respCnt.toNat = 0
  respCnt_lt : ∀ b ∈ H.owed.head?, s.respCnt.toNat < b.2.bl.toNat / dataWidthBytes
  labels : H.bursts.flatMap (labels dataWidthBytes) =
    H.sent.map Prod.fst ++ (H.owed.flatMap (labels dataWidthBytes)).drop s.respCnt.toNat
  directed : s.readData.Everywhere (Directed numServers (bitsPerCycle numServers))
  flow : ∀ i, (H.sent.filter fun e => e.1.1 = i).map (fun e => (e.2, e.1.2.last)) =
    H.out i ++ s.arriving i
  dequeued : ∀ i, dequeued i tr = (H.out i).map Prod.fst
  finished : ∀ i, H.ledger.finished i = (H.out i).countP Prod.snd
  credit : ∀ i, H.ledger.credit i +
    ((H.ledger.issued i ++ s.loader.pending i).map (MemengineCmd.fullBeats dataWidthBytes)).sum =
      bufferSizeBeats + (H.out i).length

/-! ## Small facts -/

/-- Beats are on their paths. -/
lemma confined (s : MemreadEngine dataWidth cmdQDepth numServers bufferSizeBeats) :
    s.readData.Confined (dataPaths dataWidth numServers) :=
  fun n x _ => unfunnelPaths_pos n x

/-- The unfunnel takes beats along the paths to their pipes. -/
lemma data_follows : (dataPaths dataWidth numServers).Follows
    (unfunnelRoute numServers (bitsPerCycle numServers)) :=
  unfunnel_follows (bitsPerCycle_pos numServers) (bitsPerCycle_le numServers)

/-- A beat enters on the path to the server of its burst. -/
lemma dataPaths_key_top (i : Fin numServers) (x : BitVec dataWidth × Bool) :
    (dataPaths dataWidth numServers).key (dataTop numServers) (BitVec.ofNat _ i, x) = i.val := by
  have hle := le_two_pow_tlog numServers
  have hlt := i.isLt
  simp only [unfunnelPaths, dataTop, outputOf, tagShift, Nat.sub_self, Nat.zero_mul, Nat.zero_add,
    Nat.pow_zero, Nat.div_one, Nat.succ_ne_zero, if_false]
  rw [BitVec.toNat_ofNat, Nat.mod_eq_of_lt (by omega)]

/-- A burst has as many beats as its length says. -/
lemma length_labels (b : Fin numServers × MemengineCmd) :
    (labels dataWidthBytes b).length = b.2.bl.toNat / dataWidthBytes := by
  simp [labels, MemengineCmd.beatsOfBurst, MemengineCmd.beatsFrom]

variable {tr es : List (Event dataWidth numServers)}
  {s s' : MemreadEngine dataWidth cmdQDepth numServers bufferSizeBeats}
  {H : History dataWidth numServers}

/-- The beats of the burst that is being answered are not all there. -/
lemma Delivers.respCnt_le (h : Delivers dataWidthBytes tr s H) :
    s.respCnt.toNat ≤ (H.owed.flatMap (MemreadEngine.labels dataWidthBytes)).length := by
  cases howed : H.owed with
  | nil =>
    rw [h.respCnt_zero howed]
    exact Nat.zero_le _
  | cons b bs =>
    have hlt := h.respCnt_lt b (by simp [howed])
    rw [List.flatMap_cons, List.length_append, length_labels]
    omega

/-- A burst waiting to be taken belongs to a command. -/
lemma Delivers.pending_whole (h : Delivers dataWidthBytes tr s H) {i : Fin numServers}
    {c : MemengineCmd} (hc : c ∈ s.loader.pending i) : c.Whole dataWidthBytes := by
  have hmem : c ∈ (H.ledger.accepted i).flatMap MemengineCmd.bursts := by
    rw [h.keeps.flow i]
    exact List.mem_append_right _ (List.mem_append_left _ hc)
  obtain ⟨d, hd, hcd⟩ := List.mem_flatMap.mp hmem
  exact (h.whole i d hd).bursts c hcd

/-- A burst taken belongs to a command. -/
lemma Delivers.issued_whole (h : Delivers dataWidthBytes tr s H) {i : Fin numServers}
    {c : MemengineCmd} (hc : c ∈ H.ledger.issued i) : c.Whole dataWidthBytes := by
  have hmem : c ∈ (H.ledger.accepted i).flatMap MemengineCmd.bursts := by
    rw [h.keeps.flow i]
    exact List.mem_append_left _ hc
  obtain ⟨d, hd, hcd⟩ := List.mem_flatMap.mp hmem
  exact (h.whole i d hd).bursts c hcd

/-- The labels of the bursts of one server are those of its bursts. -/
lemma filter_labels (i : Fin numServers) (G : List (Fin numServers × MemengineCmd)) :
    ((G.flatMap (MemreadEngine.labels dataWidthBytes)).filter fun p => p.1 = i).map Prod.snd =
      ((G.filter fun b => b.1 = i).map Prod.snd).flatMap
        (MemengineCmd.beatsOfBurst dataWidthBytes) := by
  induction G with
  | nil => rfl
  | cons b G ih =>
    rw [List.flatMap_cons, List.filter_append, List.map_append, ih]
    by_cases hb : b.1 = i
    · simp [MemreadEngine.labels, hb, List.filter_map, Function.comp_def]
    · simp [MemreadEngine.labels, hb]

/-- One beat of a burst is marked if the burst is the last. -/
lemma countP_beatsFrom {p : BitVec 32} {o : BitVec 40} {n : ℕ} (hn : 0 < n) (last : Bool) :
    (MemengineCmd.beatsFrom dataWidthBytes p o n last).countP MemengineCmd.Beat.last =
      if last then 1 else 0 := by
  obtain ⟨m, rfl⟩ : ∃ m, n = m + 1 := ⟨n - 1, by omega⟩
  rw [MemengineCmd.beatsFrom, List.range_succ, List.map_append, List.countP_append, List.map_singleton,
    List.countP_singleton, List.countP_eq_zero.mpr]
  · simp
  · intro b hb
    obtain ⟨j, hj, rfl⟩ := List.mem_map.mp hb
    have := List.mem_range.mp hj
    simp only [Bool.and_eq_true, decide_eq_true_eq, not_and]
    omega

/-- As many beats are marked as there are last bursts. -/
lemma countP_beatsOfBurst {cs : List MemengineCmd}
    (h : ∀ c ∈ cs, c.Whole dataWidthBytes) :
    (cs.flatMap (MemengineCmd.beatsOfBurst dataWidthBytes)).countP MemengineCmd.Beat.last =
      cs.countP MemengineCmd.isLast := by
  induction cs with
  | nil => rfl
  | cons c cs ih =>
    have hpos : 0 < c.bl.toNat / dataWidthBytes := (h c List.mem_cons_self).bl.beats_pos
    rw [List.flatMap_cons, List.countP_append, ih fun d hd => h d (List.mem_cons_of_mem _ hd),
      List.countP_cons, MemengineCmd.beatsOfBurst, countP_beatsFrom hpos, Nat.add_comm]

/-- The marks of the beats that came for a server are among those of its bursts. -/
lemma Delivers.countP_le (h : Delivers dataWidthBytes tr s H) (i : Fin numServers) :
    (H.out i ++ s.arriving i).countP Prod.snd ≤ (H.ledger.issued i).countP MemengineCmd.isLast := by
  have hlabels := congrArg (fun ls => ((ls.filter fun p => p.1 = i).map Prod.snd).countP
    MemengineCmd.Beat.last) h.labels
  simp only [filter_labels, ← h.issued i, List.filter_append, List.map_append, List.countP_append]
    at hlabels
  rw [countP_beatsOfBurst fun c hc => h.issued_whole hc] at hlabels
  have hsent : (H.out i ++ s.arriving i).countP Prod.snd =
      (((H.sent.map Prod.fst).filter fun p => p.1 = i).map Prod.snd).countP MemengineCmd.Beat.last := by
    rw [← h.flow i, List.filter_map, List.map_map, List.countP_map, List.countP_map]
    rfl
  omega

/-! ## The steps -/

/-- After reset. -/
lemma delivers_reset (hd : 0 < cmdQDepth)
    (buff : BitVec (buffAddrSz numServers cmdQDepth) → MemengineCmd) :
    Delivers dataWidthBytes [] (reset dataWidth cmdQDepth numServers bufferSizeBeats buff)
      ⟨.start numServers bufferSizeBeats, fun _ => [], [], [], [], fun _ => []⟩ where
  keeps := Loader.keeps_reset hd bufferSizeBeats buff
  accepted _ := rfl
  whole i c hc := by cases hc
  answered _ := rfl
  stored _ := rfl
  loaded _ := rfl
  requests := rfl
  issued _ := rfl
  given := rfl
  workf := rfl
  owed_whole b hb := by cases hb
  respCnt_zero _ := rfl
  respCnt_lt b hb := by cases hb
  labels := rfl
  directed n x hx := by cases hx
  flow i := by
    have hempty : ∀ d, (Net.empty : Net (dataCap bufferSizeBeats) _).stream
        (dataPaths dataWidth numServers) i d = [] := by
      intro d
      induction d with
      | zero => rfl
      | succ d ih => rw [Net.stream, ih]; rfl
    exact (hempty _).symm
  dequeued _ := rfl
  finished _ := rfl
  credit _ := rfl

/-- A step of the loader that neither takes credit nor hands on a burst. -/
lemma Delivers.loader (h : Delivers dataWidthBytes tr s H) {l : Loader cmdQDepth numServers}
    {L : Ledger numServers} {q : Fin numServers → List MemengineCmd} (hk : l.Keeps dataWidthBytes L q)
    (hacc : ∀ i, L.accepted i = MemreadEngine.accepted i (tr ++ es))
    (hwhole : ∀ i, ∀ c ∈ L.accepted i, c.Whole dataWidthBytes)
    (hans : ∀ i, L.answered i = responses i (tr ++ es))
    (hstored : ∀ i, MemreadEngine.stored i (tr ++ es) = removed i (tr ++ es) + (q i).length)
    (hloaded : ∀ i, MemreadEngine.loaded i (tr ++ es) = L.issued i ++ l.pending i)
    (hreq : MemreadEngine.requests es = []) (hgiven : MemreadEngine.given es = [])
    (hdeq : ∀ i, MemreadEngine.dequeued i es = []) (hissued : L.issued = H.ledger.issued)
    (hfin : L.finished = H.ledger.finished)
    (hcredit : ∀ i, L.credit i +
        ((l.pending i).map (MemengineCmd.fullBeats dataWidthBytes)).sum = H.ledger.credit i +
        ((s.loader.pending i).map (MemengineCmd.fullBeats dataWidthBytes)).sum) :
    Delivers dataWidthBytes (tr ++ es) { s with loader := l }
      { H with ledger := L, queues := q } where
  keeps := hk
  accepted := hacc
  whole := hwhole
  answered := hans
  stored := hstored
  loaded := hloaded
  requests := by rw [requests_append, hreq, List.append_nil, h.requests]
  issued i := by rw [hissued, h.issued i]
  given := by rw [given_append, hgiven, List.append_nil, h.given]
  workf := h.workf
  owed_whole := h.owed_whole
  respCnt_zero := h.respCnt_zero
  respCnt_lt := h.respCnt_lt
  labels := h.labels
  directed := h.directed
  flow := h.flow
  dequeued i := by rw [dequeued_append, hdeq i, List.append_nil, h.dequeued i]
  finished i := by rw [hfin, h.finished i]
  credit i := by
    have h₁ := h.credit i
    have h₂ := hcredit i
    show L.credit i + ((L.issued i ++ l.pending i).map (MemengineCmd.fullBeats dataWidthBytes)).sum =
      bufferSizeBeats + (H.out i).length
    rw [hissued, List.map_append, List.sum_append]
    rw [List.map_append, List.sum_append] at h₁
    omega

/-- A rule of the loader that changes neither its record nor its queues. -/
lemma Delivers.silent (h : Delivers dataWidthBytes tr s H) {l : Loader cmdQDepth numServers}
    (hk : l.Keeps dataWidthBytes H.ledger H.queues ∧ l.loadfC = s.loader.loadfC) :
    Delivers dataWidthBytes tr { s with loader := l } H := by
  have hpend : ∀ i, l.pending i = s.loader.pending i := by
    intro i
    rw [Loader.pending, hk.2]
    rfl
  exact { h with
    keeps := hk.1
    loaded := fun i => by
      rw [hpend i]
      exact h.loaded i
    flow := h.flow
    credit := fun i => by
      rw [hpend i]
      exact h.credit i }

/-- The loader hands on a burst. -/
lemma Delivers.loadBurst (h : Delivers dataWidthBytes tr s H) {l : Loader cmdQDepth numServers}
    {i : Fin numServers} {c : MemengineCmd}
    (hs : s.loader.loadCtxtC dataWidthBytes = some (l, some (i, c))) :
    ∃ H', Delivers dataWidthBytes (tr ++ [Event.loaded i c]) { s with loader := l } H' := by
  obtain ⟨cs, hq, hle, hloadfC, hk⟩ := h.keeps.loadCtxtC_some hs
  have hpend : ∀ j, l.pending j = s.loader.pending j ++ if i = j then [c] else [] := by
    intro j
    rw [Loader.pending, hloadfC, List.filter_append, List.map_append]
    by_cases hj : i = j
    · simp [Loader.pending, hj]
    · simp [Loader.pending, hj]
  refine ⟨_, h.loader hk (fun j => ?_) h.whole (fun j => ?_) (fun j => ?_) (fun j => ?_) rfl rfl
    (fun j => rfl) rfl rfl fun j => ?_⟩
  · rw [accepted_append, ← h.accepted j]
    exact (List.append_nil _).symm
  · rw [responses_append, ← h.answered j]
    rfl
  · rw [stored_append, removed_append, h.stored j]
    by_cases hj : j = i
    · subst hj
      rw [hq, List.length_cons]
      cases hlast : c.isLast with
      | true =>
        simp [MemreadEngine.stored, removed, MemreadEngine.loaded, Event.loaded?, hlast]
        omega
      | false => simp [MemreadEngine.stored, removed, MemreadEngine.loaded, Event.loaded?, hlast]
    · have hij : i ≠ j := fun he => hj he.symm
      simp [MemreadEngine.stored, removed, MemreadEngine.loaded, Event.loaded?,
        Function.update_of_ne hj, hij]
  · rw [loaded_append, h.loaded j, hpend j, List.append_assoc]
    by_cases hj : i = j
    · simp [MemreadEngine.loaded, Event.loaded?, Ledger.setCredit, hj]
    · simp [MemreadEngine.loaded, Event.loaded?, Ledger.setCredit, hj]
  · rw [hpend j, List.map_append, List.sum_append]
    by_cases hj : j = i
    · subst hj
      simp only [Ledger.setCredit, Function.update_self, if_true, List.map_singleton,
        List.sum_singleton]
      omega
    · have hij : i ≠ j := fun he => hj he.symm
      simp [Ledger.setCredit, Function.update_of_ne hj, hij]

/-- A burst is requested. -/
lemma Delivers.readReq (h : Delivers dataWidthBytes tr s H) {i : Fin numServers} {r : ObjectRequest}
    (hs : s.getReadReq dataWidthBytes = some ((i, r), s')) :
    ∃ H', Delivers dataWidthBytes (tr ++ [Event.request i r]) s' H' := by
  simp only [getReadReq, bind, pure, Option.bind_eq_some_iff, Prod.exists, Fifo.enq_eq_some,
    Option.some.injEq, Prod.mk.injEq] at hs
  obtain ⟨j, c, loader, htake, workf, ⟨-, hworkf⟩, ⟨rfl, rfl⟩, rfl⟩ := hs
  obtain ⟨hloadfC, hk⟩ := h.keeps.takeBurst htake
  have hpend : ∀ k, s.loader.pending k = (if j = k then [c] else []) ++ loader.pending k := by
    intro k
    rw [Loader.pending, hloadfC, Loader.pending]
    by_cases hk : j = k
    · simp [hk]
    · simp [hk]
  have hc : c.Whole dataWidthBytes := h.pending_whole (i := j) (by rw [hpend j]; simp)
  refine ⟨⟨H.ledger.issue j c, H.queues, H.bursts ++ [(j, c)], H.owed ++ [(j, c)], H.sent, H.out⟩,
    { keeps := hk
      accepted := fun k => by
        rw [accepted_append, ← h.accepted k]
        exact (List.append_nil _).symm
      whole := h.whole
      answered := fun k => by
        rw [responses_append, ← h.answered k]
        rfl
      stored := fun k => by
        rw [stored_append, removed_append]
        exact h.stored k
      loaded := fun k => ?_
      requests := by
        rw [requests_append, h.requests, List.map_append]
        rfl
      issued := fun k => ?_
      given := by
        rw [given_append, h.given]
        exact List.append_nil _
      workf := by
        rw [hworkf, h.workf, List.map_append]
        rfl
      owed_whole := fun b hb => ?_
      respCnt_zero := fun hnil => by simp at hnil
      respCnt_lt := fun b hb => ?_
      labels := ?_
      directed := h.directed
      flow := h.flow
      dequeued := fun k => by
        rw [dequeued_append, h.dequeued k]
        exact List.append_nil _
      finished := h.finished
      credit := fun k => ?_ }⟩
  · have hloaded := h.loaded k
    rw [hpend k] at hloaded
    rw [loaded_append, hloaded]
    by_cases hk : k = j
    · subst hk
      simp [Ledger.issue, MemreadEngine.loaded, Event.loaded?]
    · have hjk : j ≠ k := fun he => hk he.symm
      simp [Ledger.issue, MemreadEngine.loaded, Event.loaded?, Function.update_of_ne hk, hjk]
  · by_cases hk : k = j
    · subst hk
      simp [Ledger.issue, h.issued]
    · have hjk : j ≠ k := fun he => hk he.symm
      simp [Ledger.issue, Function.update_of_ne hk, h.issued, hjk]
  · rcases List.mem_append.mp hb with hb | hb
    · exact h.owed_whole b hb
    · rw [List.mem_singleton.mp hb]
      exact hc
  · cases howed : H.owed with
    | nil =>
      simp only [howed, List.nil_append, List.head?_cons, Option.mem_some_iff] at hb
      subst hb
      rw [h.respCnt_zero howed]
      exact hc.bl.beats_pos
    | cons b' bs =>
      refine h.respCnt_lt b ?_
      simpa [howed] using hb
  · rw [List.flatMap_append, List.flatMap_append, h.labels, List.drop_append_of_le_length h.respCnt_le,
      List.append_assoc]
  · have hcredit := h.credit k
    rw [hpend k] at hcredit
    by_cases hk : k = j
    · subst hk
      simpa [Ledger.issue, Nat.add_assoc] using hcredit
    · have hjk : j ≠ k := fun he => hk he.symm
      simpa [Ledger.issue, Function.update_of_ne hk, hjk] using hcredit

/-- A beat moves on. -/
lemma Delivers.moveData (h : Delivers dataWidthBytes tr s H) {n : Node}
    {readData : Net (dataCap bufferSizeBeats) (BitVec (tlog numServers) × (BitVec dataWidth × Bool))}
    (hs : s.readData.move (unfunnelRoute numServers (bitsPerCycle numServers)) n = some readData) :
    Delivers dataWidthBytes tr { s with readData } H := by
  have hlevel : n.1 ≤ stages numServers (bitsPerCycle numServers) + 1 := by
    obtain ⟨x, m, y, -, -, hroute, -⟩ := Net.move_eq_some hs
    simp only [unfunnelRoute] at hroute
    split at hroute
    · omega
    · split at hroute
      · rename_i hn
        exact hn.2
      · cases hroute
  refine { h with
    directed := h.directed.move hs fun hx hroute =>
      (hx.route (bitsPerCycle_pos numServers) (bitsPerCycle_le numServers) hroute).2
    flow := fun i => ?_
    credit := h.credit }
  rw [h.flow i]
  congr 1
  exact (Net.stream_move data_follows (confined s) hs (Nat.lt_succ_of_le hlevel)).symm

/-- The beats of a burst from the `r`-th on. -/
lemma drop_labels {b : Fin numServers × MemengineCmd} {r : ℕ} (hr : r < b.2.bl.toNat / dataWidthBytes) :
    (MemreadEngine.labels dataWidthBytes b).drop r =
      (b.1, ⟨b.2.pointer, b.2.base + BitVec.ofNat 40 (r * dataWidthBytes),
        b.2.isLast && decide (r + 1 = b.2.bl.toNat / dataWidthBytes)⟩) ::
      (MemreadEngine.labels dataWidthBytes b).drop (r + 1) := by
  have hlt : r < (MemreadEngine.labels dataWidthBytes b).length := by rwa [length_labels]
  rw [List.drop_eq_getElem_cons hlt]
  simp [MemreadEngine.labels, MemengineCmd.beatsOfBurst, MemengineCmd.beatsFrom]

/-- A beat that enters the paths is on its way to its server. -/
lemma arriving_enq {i : Fin numServers} {x : BitVec dataWidth × Bool}
    {readData : Net (dataCap bufferSizeBeats) (BitVec (tlog numServers) × BitVec dataWidth × Bool)}
    (henq : s.readData.enq (dataTop numServers) (BitVec.ofNat _ i, x) = some readData) (j : Fin numServers) :
    readData.stream (dataPaths dataWidth numServers) j (stages numServers (bitsPerCycle numServers) + 2) =
      s.arriving j ++ if i = j then [x] else [] := by
  have hpos : (dataPaths dataWidth numServers).pos ((dataPaths dataWidth numServers).key
      (dataTop numServers) (BitVec.ofNat _ i, x)) (stages numServers (bitsPerCycle numServers) + 1) =
        dataTop numServers :=
    unfunnelPaths_pos _ _
  have hone : readData.stream (dataPaths dataWidth numServers) j
      (stages numServers (bitsPerCycle numServers) + 1 + 1) = s.arriving j ++
        if (dataPaths dataWidth numServers).key (dataTop numServers) (BitVec.ofNat _ i, x) = j then [x] else [] :=
    Net.stream_enq data_follows henq hpos
  rw [dataPaths_key_top i x] at hone
  simpa [Fin.ext_iff] using hone

/-- What `putReadData` does: the beat is the next one of the oldest burst owed, which is taken off the list with
its last beat. -/
lemma Delivers.putReadData_cases {k : ℕ} (hw : dataWidthBytes = 2 ^ k) (h : Delivers dataWidthBytes tr s H)
    {d : BitVec dataWidth} (hs : s.putReadData d = some s') :
    ∃ (i : Fin numServers) (beat : MemengineCmd.Beat), ∃ respCnt workf readData owed',
      s' = { s with respCnt, workf, readData } ∧
      s.readData.enq (dataTop numServers) (BitVec.ofNat _ i, (d, beat.last)) = some readData ∧
      workf.items = owed'.map (entry dataWidthBytes) ∧ (∀ b' ∈ owed', b' ∈ H.owed) ∧
      (owed' = [] → respCnt.toNat = 0) ∧
      (∀ b' ∈ owed'.head?, respCnt.toNat < b'.2.bl.toNat / dataWidthBytes) ∧
      (H.owed.flatMap (MemreadEngine.labels dataWidthBytes)).drop s.respCnt.toNat =
        (i, beat) :: (owed'.flatMap (MemreadEngine.labels dataWidthBytes)).drop respCnt.toNat := by
  simp only [MemreadEngine.putReadData, bind, Option.bind_eq_some_iff, Fifo.first_eq_some,
    Prod.exists] at hs
  obtain ⟨rc, i, last, ⟨ws, hfirst⟩, hs⟩ := hs
  -- the entry is that of the oldest burst owed
  obtain ⟨b, bs, howed⟩ : ∃ b bs, H.owed = b :: bs := by
    refine List.exists_cons_of_ne_nil fun hnil => ?_
    rw [h.workf, hnil] at hfirst
    cases hfirst
  have hentry := h.workf
  rw [hfirst, howed, List.map_cons] at hentry
  injection hentry with hhead htail
  simp only [entry, Prod.mk.injEq] at hhead
  obtain ⟨rfl, rfl, rfl⟩ := hhead
  have hr := h.respCnt_lt b (by simp [howed])
  have hrc : (b.2.bl >>> beatShift dataWidthBytes).toNat = b.2.bl.toNat / dataWidthBytes :=
    WholeBurst.shift_toNat hw
  have hlt := (b.2.bl >>> beatShift dataWidthBytes).isLt
  have hcnt : (s.respCnt + 1).toNat = s.respCnt.toNat + 1 := by
    refine Loader.counter_add_one (m := 255) ?_ (by decide)
    omega
  have hlen : (MemreadEngine.labels dataWidthBytes b).length = b.2.bl.toNat / dataWidthBytes := length_labels b
  refine ⟨b.1, ⟨b.2.pointer, b.2.base + BitVec.ofNat 40 (s.respCnt.toNat * dataWidthBytes),
    b.2.isLast && decide (s.respCnt.toNat + 1 = b.2.bl.toNat / dataWidthBytes)⟩, ?_⟩
  split at hs
  · -- the last beat of the burst
    rename_i heq
    have hr1 : s.respCnt.toNat + 1 = b.2.bl.toNat / dataWidthBytes := by rw [← hcnt, heq, hrc]
    simp only [pure, Option.bind_eq_some_iff, Prod.exists, Fifo.deq_eq_some, Option.some.injEq] at hs
    obtain ⟨w₁, w₂, w₃, workf, hworkf, readData, henq, rfl⟩ := hs
    rw [hfirst] at hworkf
    injection hworkf with _ hws
    refine ⟨0, workf, readData, bs, rfl, ?_, ?_, ?_, fun _ => rfl, ?_, ?_⟩
    · rw [← henq]
      simp [hr1]
    · rw [← hws, htail]
    · intro b' hb'
      rw [howed]
      exact List.mem_cons_of_mem _ hb'
    · intro b' hb'
      have hmem : b' ∈ H.owed := by
        rw [howed]
        exact List.mem_cons_of_mem _ (List.mem_of_mem_head? hb')
      exact (h.owed_whole b' hmem).bl.beats_pos
    · rw [howed, List.flatMap_cons, List.drop_append_of_le_length (by omega), drop_labels hr,
        List.drop_of_length_le (by omega)]
      rfl
  · rename_i hne
    have hr1 : s.respCnt.toNat + 1 ≠ b.2.bl.toNat / dataWidthBytes := by
      intro he
      apply hne
      apply BitVec.eq_of_toNat_eq
      rw [hcnt, hrc, he]
    simp only [pure, Option.bind_eq_some_iff, Option.some.injEq] at hs
    obtain ⟨readData, henq, rfl⟩ := hs
    refine ⟨s.respCnt + 1, s.workf, readData, H.owed, rfl, ?_, h.workf, fun b' hb' => hb', ?_, ?_, ?_⟩
    · rw [← henq]
      simp [hr1]
    · intro hnil
      rw [hnil] at howed
      cases howed
    · intro b' hb'
      rw [howed, List.head?_cons, Option.mem_some_iff] at hb'
      subst hb'
      omega
    · rw [howed, hcnt, List.flatMap_cons, List.drop_append_of_le_length (by omega), drop_labels hr,
        List.drop_append_of_le_length (by omega)]
      rfl

/-- A beat comes from the memory: it is the next one of the oldest burst that is not answered in full. -/
lemma Delivers.putReadData {k : ℕ} (hw : dataWidthBytes = 2 ^ k) (h : Delivers dataWidthBytes tr s H)
    {d : BitVec dataWidth} (hs : s.putReadData d = some s') :
    ∃ H', Delivers dataWidthBytes (tr ++ [Event.data d]) s' H' := by
  obtain ⟨i, beat, respCnt, workf, readData, owed', rfl, henq, hworkf, hsub, hzero, hcntlt, hlabels⟩ :=
    h.putReadData_cases hw hs
  refine ⟨{ H with owed := owed', sent := H.sent ++ [((i, beat), d)] },
    { h with
      accepted := fun j => by
        rw [accepted_append, ← h.accepted j]
        exact (List.append_nil _).symm
      answered := fun j => by
        rw [responses_append, ← h.answered j]
        rfl
      stored := fun j => by
        rw [stored_append, removed_append]
        exact h.stored j
      loaded := fun j => by
        rw [loaded_append, h.loaded j]
        exact List.append_nil _
      requests := by
        rw [requests_append, h.requests]
        exact List.append_nil _
      given := by
        rw [given_append, h.given, List.map_append]
        rfl
      workf := hworkf
      owed_whole := fun b' hb' => h.owed_whole b' (hsub b' hb')
      respCnt_zero := hzero
      respCnt_lt := hcntlt
      labels := by
        rw [h.labels, hlabels, List.map_append, List.append_assoc]
        rfl
      directed := h.directed.enq henq (directed_top i.isLt _)
      flow := fun j => ?_
      dequeued := fun j => by
        rw [dequeued_append, h.dequeued j]
        exact List.append_nil _
      credit := h.credit }⟩
  rw [arriving, arriving_enq henq j, ← List.append_assoc, ← h.flow j, List.filter_append, List.map_append]
  by_cases hj : i = j
  · simp [hj]
  · simp [hj]

/-- A beat is read from a pipe. -/
lemma Delivers.deq (h : Delivers dataWidthBytes tr s H) {i : Fin numServers} {d : BitVec dataWidth}
    (hs : s.deq i = some (d, s')) : ∃ H', Delivers dataWidthBytes (tr ++ [Event.dequeued i d]) s' H' := by
  simp only [MemreadEngine.deq, bind, pure, Option.bind_eq_some_iff, Prod.exists, Option.some.injEq,
    Prod.mk.injEq] at hs
  obtain ⟨t, d', last, readData, hdeq, loader, hfinish, rfl, rfl⟩ := hs
  have hstream : ∀ j : Fin numServers, s.arriving j = (if i = j then [(d', last)] else []) ++
      readData.stream (dataPaths dataWidth numServers) j
        (stages numServers (bitsPerCycle numServers) + 2) := by
    intro j
    have hone : s.arriving j = (if i.val = j.val then [(d', last)] else []) ++
        readData.stream (dataPaths dataWidth numServers) j
          (stages numServers (bitsPerCycle numServers) + 1 + 1) :=
      Net.stream_deq data_follows _ hdeq rfl
    simpa [Fin.ext_iff] using hone
  -- a marked beat announces a completion, for which there is a last burst
  have hlt : last = true → H.ledger.finished i < (H.ledger.issued i).countP MemengineCmd.isLast := by
    rintro rfl
    have hle := h.countP_le i
    rw [hstream i, if_pos rfl, List.countP_append, List.countP_append, ← h.finished i] at hle
    simp only [List.countP_singleton, if_true] at hle
    omega
  obtain ⟨hk, hloadfC⟩ := (h.keeps.giveCredit i).finishIf hfinish hlt
  have hpend : ∀ j, loader.pending j = s.loader.pending j := by
    intro j
    rw [Loader.pending, hloadfC]
    rfl
  refine ⟨{ H with
      ledger := { H.ledger.setCredit i (H.ledger.credit i + 1) with
        finished := fun j => H.ledger.finished j + if i = j ∧ last = true then 1 else 0 }
      out := Function.update H.out i (H.out i ++ [(d', last)]) },
    { h with
      keeps := hk
      accepted := fun j => by
        rw [accepted_append, ← h.accepted j]
        exact (List.append_nil _).symm
      answered := fun j => by
        rw [responses_append, ← h.answered j]
        rfl
      stored := fun j => by
        rw [stored_append, removed_append]
        exact h.stored j
      loaded := fun j => by
        rw [loaded_append, hpend j, h.loaded j]
        exact List.append_nil _
      requests := by
        rw [requests_append, h.requests]
        exact List.append_nil _
      given := by
        rw [given_append, h.given]
        exact List.append_nil _
      directed := h.directed.deq hdeq
      flow := fun j => ?_
      dequeued := fun j => ?_
      finished := fun j => ?_
      credit := fun j => ?_ }⟩
  · have hflow := h.flow j
    rw [hstream j] at hflow
    by_cases hj : j = i
    · subst hj
      simpa [arriving] using hflow
    · have hij : i ≠ j := fun he => hj he.symm
      simpa [arriving, Function.update_of_ne hj, hij] using hflow
  · rw [dequeued_append, h.dequeued j]
    by_cases hj : j = i
    · subst hj
      simp [MemreadEngine.dequeued, Event.dequeued?]
    · have hij : i ≠ j := fun he => hj he.symm
      simp [MemreadEngine.dequeued, Event.dequeued?, Function.update_of_ne hj, hij]
  · have hfin := h.finished j
    by_cases hj : j = i
    · subst hj
      simp [hfin, List.countP_singleton]
    · have hij : i ≠ j := fun he => hj he.symm
      simp [hfin, Function.update_of_ne hj, hij]
  · have h₁ := h.credit j
    by_cases hj : j = i
    · subst hj
      simp only [Ledger.setCredit, Function.update_self, List.length_append, List.length_singleton,
        hpend]
      omega
    · simpa [Ledger.setCredit, Function.update_of_ne hj, hpend] using h₁

/-- The commands put meet the condition `P`. -/
def Puts (P : MemengineCmd → Prop) (_ : MemreadEngine dataWidth cmdQDepth numServers bufferSizeBeats) :
    Action dataWidth numServers → Prop
  | .put _ c => P c
  | _ => True

instance (P : MemengineCmd → Prop) [DecidablePred P]
    (s : MemreadEngine dataWidth cmdQDepth numServers bufferSizeBeats)
    (a : Action dataWidth numServers) : Decidable (Puts P s a) :=
  match a with
  | .put _ c => inferInstanceAs (Decidable (P c))
  | .get _ | .moveCmd _ | .storeCmd | .loadCtxtA | .loadCtxtB | .loadCtxtC | .readReq | .readData _
  | .moveData _ | .deq _ => inferInstanceAs (Decidable True)

/-- A step of the read engine. -/
lemma Delivers.step {k : ℕ} (hw : dataWidthBytes = 2 ^ k) (h : Delivers dataWidthBytes tr s H)
    {a : Action dataWidth numServers} (ha : Puts (MemengineCmd.Whole dataWidthBytes) s a)
    (hs : (memreadEngine dataWidth dataWidthBytes cmdQDepth numServers bufferSizeBeats).step s a =
      some (s', es)) : ∃ H', Delivers dataWidthBytes (tr ++ es) s' H' := by
  cases a with
  | put i c =>
    simp only [memreadEngine, bind, pure, Option.bind_eq_some_iff, Option.some.injEq,
      Prod.mk.injEq] at hs
    obtain ⟨loader, hput, rfl, rfl⟩ := hs
    obtain ⟨hk, hloadfC⟩ := h.keeps.put ha.proper hput
    refine ⟨_, h.loader hk (fun j => ?_) (fun j d hd => ?_) (fun j => ?_) (fun j => ?_)
      (fun j => ?_) rfl rfl (fun j => rfl) rfl rfl fun j => ?_⟩
    · rw [accepted_append, ← h.accepted j]
      by_cases hj : j = i
      · subst hj
        simp [Ledger.accept, MemreadEngine.accepted, Event.accepted?]
      · have hij : i ≠ j := fun he => hj he.symm
        simp [Ledger.accept, MemreadEngine.accepted, Event.accepted?, Function.update_of_ne hj, hij]
    · by_cases hj : j = i
      · subst hj
        simp only [Ledger.accept, Function.update_self, List.mem_append, List.mem_singleton] at hd
        rcases hd with hd | rfl
        · exact h.whole j d hd
        · exact ha
      · simp only [Ledger.accept, Function.update_of_ne hj] at hd
        exact h.whole j d hd
    · rw [responses_append, ← h.answered j]
      rfl
    · rw [stored_append, removed_append]
      exact h.stored j
    · rw [loaded_append, h.loaded j, Loader.pending, Loader.pending, hloadfC]
      exact List.append_nil _
    · rw [Loader.pending, hloadfC]
      rfl
  | get i =>
    simp only [memreadEngine, bind, pure, Option.bind_eq_some_iff, Option.some.injEq,
      Prod.mk.injEq] at hs
    obtain ⟨loader, hget, rfl, rfl⟩ := hs
    obtain ⟨hk, hloadfC⟩ := h.keeps.get hget
    refine ⟨_, h.loader hk (fun j => ?_) h.whole (fun j => ?_) (fun j => ?_) (fun j => ?_) rfl rfl
      (fun j => rfl) rfl rfl fun j => ?_⟩
    · rw [accepted_append, ← h.accepted j]
      exact (List.append_nil _).symm
    · rw [responses_append, ← h.answered j]
      by_cases hj : j = i
      · subst hj
        simp [Ledger.answer, responses]
      · have hij : i ≠ j := fun he => hj he.symm
        simp [Ledger.answer, responses, Function.update_of_ne hj, hij]
    · rw [stored_append, removed_append]
      exact h.stored j
    · rw [loaded_append, h.loaded j, Loader.pending, Loader.pending, hloadfC]
      exact List.append_nil _
    · rw [Loader.pending, hloadfC]
      rfl
  | moveCmd n =>
    simp only [memreadEngine, bind, pure, Option.bind_eq_some_iff, Option.some.injEq,
      Prod.mk.injEq] at hs
    obtain ⟨loader, hmove, rfl, rfl⟩ := hs
    rw [List.append_nil]
    exact ⟨H, h.silent (h.keeps.moveCmd hmove)⟩
  | storeCmd =>
    simp only [memreadEngine, bind, pure, Option.bind_eq_some_iff, Prod.exists, Option.some.injEq,
      Prod.mk.injEq] at hs
    obtain ⟨i, loader, hstore, rfl, rfl⟩ := hs
    obtain ⟨c, -, hloadfC, hk⟩ := h.keeps.storeCmd hstore
    refine ⟨_, h.loader hk (fun j => ?_) h.whole (fun j => ?_) (fun j => ?_) (fun j => ?_) rfl rfl
      (fun j => rfl) rfl rfl fun j => ?_⟩
    · rw [accepted_append, ← h.accepted j]
      exact (List.append_nil _).symm
    · rw [responses_append, ← h.answered j]
      rfl
    · have hnone : removed j [(.stored i : Event dataWidth numServers)] = 0 := rfl
      rw [stored_append, removed_append, hnone, h.stored j]
      by_cases hj : j = i
      · subst hj
        simp [MemreadEngine.stored]
        omega
      · have hij : i ≠ j := fun he => hj he.symm
        simp [MemreadEngine.stored, Function.update_of_ne hj, hij]
    · rw [loaded_append, h.loaded j, Loader.pending, Loader.pending, hloadfC]
      exact List.append_nil _
    · rw [Loader.pending, hloadfC]
      rfl
  | loadCtxtA =>
    simp only [memreadEngine, bind, pure, Option.bind_eq_some_iff, Option.some.injEq,
      Prod.mk.injEq] at hs
    obtain ⟨loader, hload, rfl, rfl⟩ := hs
    rw [List.append_nil]
    exact ⟨H, h.silent (h.keeps.loadCtxtA hload)⟩
  | loadCtxtB =>
    simp only [memreadEngine, bind, pure, Option.bind_eq_some_iff, Option.some.injEq,
      Prod.mk.injEq] at hs
    obtain ⟨loader, hload, rfl, rfl⟩ := hs
    rw [List.append_nil]
    exact ⟨H, h.silent (h.keeps.loadCtxtB hload)⟩
  | loadCtxtC =>
    simp only [memreadEngine, bind, pure, Option.bind_eq_some_iff, Prod.exists, Option.some.injEq,
      Prod.mk.injEq] at hs
    obtain ⟨loader, burst, hload, rfl, rfl⟩ := hs
    cases burst with
    | none =>
      rw [Option.toList_none, List.map_nil, List.append_nil]
      exact ⟨H, h.silent (h.keeps.loadCtxtC_none hload)⟩
    | some b =>
      obtain ⟨i, c⟩ := b
      rw [Option.toList_some, List.map_singleton]
      exact h.loadBurst hload
  | readReq =>
    simp only [memreadEngine, bind, pure, Option.bind_eq_some_iff, Prod.exists, Option.some.injEq,
      Prod.mk.injEq] at hs
    obtain ⟨i, r, s₁, hreq, rfl, rfl⟩ := hs
    exact h.readReq hreq
  | readData d =>
    simp only [memreadEngine, bind, pure, Option.bind_eq_some_iff, Option.some.injEq,
      Prod.mk.injEq] at hs
    obtain ⟨s₁, hput, rfl, rfl⟩ := hs
    exact h.putReadData hw hput
  | moveData n =>
    simp only [memreadEngine, bind, pure, Option.bind_eq_some_iff, Option.some.injEq,
      Prod.mk.injEq] at hs
    obtain ⟨readData, hmove, rfl, rfl⟩ := hs
    rw [List.append_nil]
    exact ⟨H, h.moveData hmove⟩
  | deq i =>
    simp only [memreadEngine, bind, pure, Option.bind_eq_some_iff, Prod.exists, Option.some.injEq,
      Prod.mk.injEq] at hs
    obtain ⟨d, s₁, hdeq, rfl, rfl⟩ := hs
    exact h.deq hdeq

/-- The command that an action puts on server `i`. -/
def Action.puts (i : Fin numServers) : Action dataWidth numServers → List MemengineCmd
  | .put j c => if j = i then [c] else []
  | _ => []

/-- Commands are accepted by `put` alone. -/
lemma accepted_of_step {a : Action dataWidth numServers}
    (hs : (memreadEngine dataWidth dataWidthBytes cmdQDepth numServers bufferSizeBeats).step s a =
      some (s', es)) (i : Fin numServers) : MemreadEngine.accepted i es = a.puts i := by
  cases a with
  | put j c =>
    simp only [memreadEngine, bind, pure, Option.bind_eq_some_iff, Option.some.injEq,
      Prod.mk.injEq] at hs
    obtain ⟨loader, -, -, rfl⟩ := hs
    by_cases hj : j = i
    · simp [MemreadEngine.accepted, Event.accepted?, Action.puts, hj]
    · simp [MemreadEngine.accepted, Event.accepted?, Action.puts, hj]
  | get j | moveCmd n | loadCtxtA | loadCtxtB | readData d | moveData n =>
    simp only [memreadEngine, bind, pure, Option.bind_eq_some_iff, Option.some.injEq,
      Prod.mk.injEq] at hs
    obtain ⟨loader, -, -, rfl⟩ := hs
    rfl
  | storeCmd | deq j =>
    simp only [memreadEngine, bind, pure, Option.bind_eq_some_iff, Prod.exists, Option.some.injEq,
      Prod.mk.injEq] at hs
    obtain ⟨x, y, -, -, rfl⟩ := hs
    rfl
  | loadCtxtC =>
    simp only [memreadEngine, bind, pure, Option.bind_eq_some_iff, Prod.exists, Option.some.injEq,
      Prod.mk.injEq] at hs
    obtain ⟨loader, burst, -, -, rfl⟩ := hs
    cases burst with
    | none => rfl
    | some b => rfl
  | readReq =>
    simp only [memreadEngine, bind, pure, Option.bind_eq_some_iff, Prod.exists, Option.some.injEq,
      Prod.mk.injEq] at hs
    obtain ⟨x, y, z, -, -, rfl⟩ := hs
    rfl

/-- **Every run of an engine agrees with its past**, if the commands are whole and a beat is a power of
two bytes wide. -/
theorem exists_delivers {k : ℕ} (hw : dataWidthBytes = 2 ^ k) (hd : 0 < cmdQDepth)
    {P : MemengineCmd → Prop} [DecidablePred P] (hP : ∀ c, P c → c.Whole dataWidthBytes)
    {buff : BitVec (buffAddrSz numServers cmdQDepth) → MemengineCmd}
    (h : ((memreadEngine dataWidth dataWidthBytes cmdQDepth numServers bufferSizeBeats).guard
      (Puts P)).Reaches (reset dataWidth cmdQDepth numServers bufferSizeBeats buff) tr s) :
    (∃ H, Delivers dataWidthBytes tr s H) ∧ ∀ i, ∀ c ∈ MemreadEngine.accepted i tr, P c := by
  refine h.invariant (I := fun tr s => (∃ H, Delivers dataWidthBytes tr s H) ∧
    ∀ i, ∀ c ∈ MemreadEngine.accepted i tr, P c) ⟨⟨_, delivers_reset hd buff⟩, ?_⟩ ?_
  · intro i c hc
    cases hc
  · rintro tr s a s' es ⟨⟨H, ih⟩, hacc⟩ hs
    rw [RuleSystem.guard_step] at hs
    obtain ⟨ha, hs⟩ := hs
    have hwhole : Puts (MemengineCmd.Whole dataWidthBytes) s a := by
      cases a with
      | put i c => exact hP c ha
      | _ => trivial
    obtain ⟨H', h'⟩ := ih.step hw hwhole hs
    refine ⟨⟨H', h'⟩, fun i c hc => ?_⟩
    rw [accepted_append, List.mem_append] at hc
    rcases hc with hc | hc
    · exact hacc i c hc
    · rw [accepted_of_step hs i] at hc
      cases a with
      | put j d =>
        simp only [Action.puts] at hc
        split at hc
        · rw [List.mem_singleton.mp hc]
          exact ha
        · cases hc
      | _ => cases hc

/-! ## What has been delivered -/

/-- The last beat of a command is its only marked one. -/
lemma beatsOf_eq_concat {c : MemengineCmd} (h : c.Whole dataWidthBytes) :
    ∃ bs b, c.beatsOf dataWidthBytes = bs ++ [b] ∧ b.last = true ∧ ∀ b' ∈ bs, b'.last = false := by
  have hw : 0 < dataWidthBytes := Nat.pos_of_dvd_of_pos h.dvd_len h.len_pos
  have hpos : 0 < c.len.toNat / dataWidthBytes :=
    Nat.div_pos (Nat.le_of_dvd h.len_pos h.dvd_len) hw
  obtain ⟨n, hn⟩ : ∃ n, c.len.toNat / dataWidthBytes = n + 1 :=
    ⟨c.len.toNat / dataWidthBytes - 1, by omega⟩
  rw [MemengineCmd.beatsOf, MemengineCmd.beatsFrom, hn, List.range_succ, List.map_append]
  refine ⟨_, _, rfl, by simp, fun b hb => ?_⟩
  obtain ⟨j, hj, rfl⟩ := List.mem_map.mp hb
  have hlt := List.mem_range.mp hj
  simp only [Bool.true_and, decide_eq_false_iff_not]
  omega

/-- The marks among the first `m` beats of commands count the commands that these beats complete. -/
lemma countP_take_beatsOf {cs : List MemengineCmd} (h : ∀ c ∈ cs, c.Whole dataWidthBytes) (m : ℕ) :
    ((cs.flatMap (MemengineCmd.beatsOf dataWidthBytes)).take m).countP MemengineCmd.Beat.last =
      completed (cs.map fun c => c.len.toNat / dataWidthBytes) m := by
  rw [countP_take_flatMap fun c hc => beatsOf_eq_concat (h c hc)]
  congr 2
  funext c
  rw [MemengineCmd.beatsOf, MemengineCmd.beatsFrom, List.length_map, List.length_range]

/-- What holds of server `i` at every moment of a run. -/
structure Delivered (dataWidthBytes : ℕ) (tr : List (Event dataWidth numServers))
    (s : MemreadEngine dataWidth cmdQDepth numServers bufferSizeBeats) (i : Fin numServers) : Prop where
  /-- The requests are those of the commands in turn, and the requests of each command cover it. -/
  tiles : ∃ rss : List (List ObjectRequest),
    List.Forall₂ (fun c rs => MemengineCmd.Tiles c.pointer.toNat c.burstLen.toNat c.base.toNat
      c.len.toNat rs) (MemreadEngine.accepted i tr) rss ∧ requestsOf i tr <+: rss.flatten
  /-- The beats read from the pipe are those that the memory gave for the server, in order. -/
  pipe : MemreadEngine.dequeued i tr <+: (givenTo i tr dataWidthBytes).map Prod.snd
  /-- The beats that the memory gave for the server are those of its commands, in order. -/
  places : (givenTo i tr dataWidthBytes).map Prod.fst <+:
    (MemreadEngine.accepted i tr).flatMap fun c =>
      (c.beatsOf dataWidthBytes).map fun b => (b.pointer, b.offset)
  /-- A response comes after the last beat of its command was read. -/
  responses_le : responses i tr ≤ completed
    ((MemreadEngine.accepted i tr).map fun c => c.len.toNat / dataWidthBytes)
    (MemreadEngine.dequeued i tr).length
  /-- At most one response is outstanding. -/
  le_responses : completed ((MemreadEngine.accepted i tr).map fun c => c.len.toNat / dataWidthBytes)
    (MemreadEngine.dequeued i tr).length ≤ responses i tr + 1
  /-- The queue of commands does not overflow. -/
  queue_le : MemreadEngine.stored i tr ≤ removed i tr + cmdQDepth
  outs1_le : (s.loader.outs1 i).toNat ≤ (s.loader.outs0 i).toNat
  outs0_le : (s.loader.outs0 i).toNat ≤ cmdQDepth

/-- The bursts requested for a server are the first bursts of its commands. -/
lemma Delivers.issued_prefix (h : Delivers dataWidthBytes tr s H) (i : Fin numServers) :
    H.ledger.issued i <+: (MemreadEngine.accepted i tr).flatMap MemengineCmd.bursts := by
  rw [← h.accepted i, h.keeps.flow i]
  exact List.prefix_append _ _

/-- The beats that the memory gave for a server. -/
lemma Delivers.givenTo_eq (h : Delivers dataWidthBytes tr s H) (i : Fin numServers) :
    givenTo i tr dataWidthBytes = (H.sent.filter fun e => e.1.1 = i).map fun e =>
      ((e.1.2.pointer, e.1.2.offset), e.2) := by
  have hplaces : ((MemreadEngine.requests tr).flatMap fun r =>
      (places dataWidthBytes r.2).map fun p => (r.1, p)) =
        (H.sent.map Prod.fst ++ (H.owed.flatMap (MemreadEngine.labels dataWidthBytes)).drop
          s.respCnt.toNat).map fun e => (e.1, (e.2.pointer, e.2.offset)) := by
    rw [← h.labels, h.requests, List.flatMap_map, List.map_flatMap]
    refine List.flatMap_congr fun b _ => ?_
    simp [places, MemreadEngine.labels, MemengineCmd.beatsOfBurst, MemengineCmd.beatsFrom,
      MemengineCmd.request, Function.comp_def]
  have hzip : ∀ X : List (Fin numServers × MemengineCmd.Beat),
      ((H.sent.map Prod.fst ++ X).map fun e => (e.1, (e.2.pointer, e.2.offset))).zip
        (H.sent.map Prod.snd) =
      H.sent.map fun e => ((e.1.1, (e.1.2.pointer, e.1.2.offset)), e.2) := by
    intro X
    induction H.sent with
    | nil => simp
    | cons e es ih => simpa using ih
  rw [givenTo, hplaces, h.given, hzip, List.filter_map, List.map_map]
  rfl

/-- The labels of the beats that the memory gave for a server are the first of its commands. -/
lemma Delivers.sent_prefix (h : Delivers dataWidthBytes tr s H) (i : Fin numServers) :
    (H.sent.filter fun e => e.1.1 = i).map (fun e => e.1.2) <+:
      (MemreadEngine.accepted i tr).flatMap (MemengineCmd.beatsOf dataWidthBytes) := by
  have hlabels : ((H.sent.map Prod.fst).filter fun p => p.1 = i).map Prod.snd <+:
      (H.ledger.issued i).flatMap (MemengineCmd.beatsOfBurst dataWidthBytes) := by
    rw [h.issued i, ← filter_labels, h.labels, List.filter_append, List.map_append]
    exact List.prefix_append _ _
  have hbursts : (H.ledger.issued i).flatMap (MemengineCmd.beatsOfBurst dataWidthBytes) <+:
      (MemreadEngine.accepted i tr).flatMap (MemengineCmd.beatsOf dataWidthBytes) := by
    obtain ⟨rest, hrest⟩ := h.issued_prefix i
    refine ⟨rest.flatMap (MemengineCmd.beatsOfBurst dataWidthBytes), ?_⟩
    rw [← List.flatMap_append, hrest, List.flatMap_assoc]
    refine List.flatMap_congr fun c hc => ?_
    exact MemengineCmd.flatMap_beatsOfBurst (h.whole i c (by rwa [h.accepted i]))
  rw [List.filter_map, List.map_map] at hlabels
  exact hlabels.trans hbursts

/-- The beats read from a pipe are the first that the memory gave for it. -/
lemma Delivers.out_prefix (h : Delivers dataWidthBytes tr s H) (i : Fin numServers) :
    H.out i <+: (H.sent.filter fun e => e.1.1 = i).map fun e => (e.2, e.1.2.last) := by
  rw [h.flow i]
  exact List.prefix_append _ _

/-- The completions announced are those of the commands whose beats have all been read. -/
lemma Delivers.finished_eq (h : Delivers dataWidthBytes tr s H) (i : Fin numServers) :
    H.ledger.finished i = completed
      ((MemreadEngine.accepted i tr).map fun c => c.len.toNat / dataWidthBytes)
      (MemreadEngine.dequeued i tr).length := by
  have hmarks : (H.out i).map Prod.snd <+: ((MemreadEngine.accepted i tr).flatMap
      (MemengineCmd.beatsOf dataWidthBytes)).map MemengineCmd.Beat.last := by
    have h₁ := (h.out_prefix i).map Prod.snd
    have h₂ := (h.sent_prefix i).map MemengineCmd.Beat.last
    rw [List.map_map] at h₁ h₂
    exact h₁.trans h₂
  have hcount := congrArg (List.countP id) (List.prefix_iff_eq_take.mp hmarks)
  rw [List.countP_map, ← List.map_take, List.countP_map, List.length_map] at hcount
  rw [h.finished i, h.dequeued i, List.length_map,
    ← countP_take_beatsOf (fun c hc => h.whole i c (by rwa [h.accepted i]))]
  exact hcount

/-- **What an engine that agrees with its past has delivered.** -/
theorem Delivers.delivered (h : Delivers dataWidthBytes tr s H) {i : Fin numServers}
    (hspace : ∀ c ∈ MemreadEngine.accepted i tr, c.base.toNat + c.len.toNat < 2 ^ 40) :
    Delivered dataWidthBytes tr s i := by
  have hout := h.out_prefix i
  have hfin := h.finished_eq i
  have houtfs := h.keeps.outfs i
  have hone := (s.loader.outfs i).length_le
  have hans := h.answered i
  have hroom := h.keeps.room i
  refine
    { tiles := ⟨(MemreadEngine.accepted i tr).map fun c => c.bursts.map MemengineCmd.request, ?_, ?_⟩
      pipe := ?_
      places := ?_
      responses_le := by omega
      le_responses := by omega
      queue_le := ?_
      outs1_le := ?_
      outs0_le := h.keeps.outs0_le i }
  · rw [List.forall₂_map_right_iff, List.forall₂_same]
    intro c hc
    have hwhole := h.whole i c (by rwa [h.accepted i])
    exact MemengineCmd.tiles_bursts hwhole.proper (hspace c hc).le
  · have hreq : requestsOf i tr = (H.ledger.issued i).map MemengineCmd.request := by
      rw [requestsOf, h.requests, h.issued i, List.filter_map, List.map_map, List.map_map]
      rfl
    rw [hreq, ← List.flatMap_def, ← List.map_flatMap]
    exact (h.issued_prefix i).map _
  · rw [h.dequeued i, h.givenTo_eq i, List.map_map]
    have h₁ := hout.map Prod.fst
    rw [List.map_map] at h₁
    exact h₁
  · rw [h.givenTo_eq i, List.map_map]
    have h₁ := (h.sent_prefix i).map fun b => (b.pointer, b.offset)
    rw [List.map_map, List.map_flatMap] at h₁
    exact h₁
  · have hstored := h.stored i
    have hle := h.keeps.outs0_le i
    omega
  · rw [h.keeps.outs1 i]
    omega

end MemreadEngine

end Xbsv
