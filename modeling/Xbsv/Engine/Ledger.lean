import Xbsv.Engine.Loader

set_option relaxedAutoImplicit false
set_option autoImplicit false

/-!
# What the command loader keeps

The loader against a record of its past. For each server the record has the commands accepted, the
bursts taken from the loader, the completions announced and those fetched, and the credit. The bursts
taken, the burst waiting to be taken, and the bursts of what is left of the commands in the queue and
in the funnel are, in this order, the bursts of the commands accepted: none is lost, made up or taken
out of turn. Counting last bursts bounds the commands in the queue, which has no guard of its own.

The operations of the loader keep the record; the engines use that and never look into the loader.

## Main definitions

* `Xbsv.Ledger` — the record.
* `Xbsv.Loader.Keeps` — the loader keeps the record.

## Main results

* `Xbsv.Loader.Keeps.put`, …, `Xbsv.Loader.Keeps.finish` — one for each operation.
* `Xbsv.Loader.Keeps.room` — the queues of commands do not overflow.
-/

namespace Xbsv

open Rules

/-- The past of a loader, for each server. -/
structure Ledger (numServers : ℕ) where
  accepted : Fin numServers → List MemengineCmd
  /-- The bursts taken from the loader, each as what was left of its command. -/
  issued : Fin numServers → List MemengineCmd
  /-- The number of completions fetched. -/
  answered : Fin numServers → ℕ
  /-- The number of completions announced. -/
  finished : Fin numServers → ℕ
  /-- The credit: the true value of `buffCap`, which has 16 bits. -/
  credit : Fin numServers → ℕ

namespace Ledger

variable {numServers : ℕ} (L : Ledger numServers) (i : Fin numServers)

/-- Nothing has happened. -/
def start (numServers credit : ℕ) : Ledger numServers :=
  ⟨fun _ => [], fun _ => [], fun _ => 0, fun _ => 0, fun _ => credit⟩

/-- A command is accepted. -/
def accept (c : MemengineCmd) : Ledger numServers :=
  { L with accepted := Function.update L.accepted i (L.accepted i ++ [c]) }

/-- A burst is taken. -/
def issue (c : MemengineCmd) : Ledger numServers :=
  { L with issued := Function.update L.issued i (L.issued i ++ [c]) }

/-- A completion is fetched. -/
def answer : Ledger numServers :=
  { L with answered := Function.update L.answered i (L.answered i + 1) }

/-- A completion is announced. -/
def finish : Ledger numServers :=
  { L with finished := Function.update L.finished i (L.finished i + 1) }

/-- The credit changes. -/
def setCredit (n : ℕ) : Ledger numServers := { L with credit := Function.update L.credit i n }

end Ledger

/-- The streams of the command funnel: the commands of each server. -/
def cmdPaths (numServers : ℕ) :
    Net.Paths Node (Fin numServers × MemengineCmd) MemengineCmd (Fin numServers) :=
  funnelPaths numServers (bitsPerCycle numServers) Prod.fst Prod.snd fun i => i

namespace Loader

variable {cmdQDepth numServers : ℕ}

/-- The commands of a server in the funnel, oldest first. -/
def waiting (l : Loader cmdQDepth numServers) (i : Fin numServers) : List MemengineCmd :=
  l.cmdsIn.stream (cmdPaths numServers) i (stages numServers (bitsPerCycle numServers) + 1)

/-- The burst of a server that waits to be taken. -/
def pending (l : Loader cmdQDepth numServers) (i : Fin numServers) : List MemengineCmd :=
  (l.loadfC.items.filter fun b => b.1 = i).map Prod.snd

/-- The three rules of the loader go round: nothing is under way, or the oldest command of the server
in turn is, first as the answer of the block RAM, then with the result of the tests. -/
structure Phase (dataWidthBytes : ℕ) (credit : Fin numServers → ℕ) (l : Loader cmdQDepth numServers)
    (q : Fin numServers → List MemengineCmd) : Prop where
  idle : l.loadInProgress = false → l.cmdBuf.resp.items = [] ∧ l.loadfB.items = []
  busy : l.loadInProgress = true → ∃ i c cs, serverOf numServers l.loadIdx = some i ∧ q i = c :: cs ∧
    ((l.cmdBuf.resp.items = [c] ∧ l.loadfB.items = []) ∨
      (l.cmdBuf.resp.items = [] ∧ ∃ cond0, l.loadfB.items = [(c, cond0, c.isLast)] ∧
        (cond0 = true → c.fullBeats dataWidthBytes ≤ credit i)))

/-- The loader keeps the record `L`; `q` are the commands in the queues, what is left of them. -/
structure Keeps (dataWidthBytes : ℕ) (L : Ledger numServers) (l : Loader cmdQDepth numServers)
    (q : Fin numServers → List MemengineCmd) : Prop where
  holds : l.cmdBuf.Holds q
  confined : l.cmdsIn.Confined (cmdPaths numServers)
  levels : l.cmdsIn.Everywhere fun n _ => n.1 ≤ stages numServers (bitsPerCycle numServers)
  accepted_proper : ∀ i, ∀ c ∈ L.accepted i, c.Proper
  proper : ∀ i, ∀ c ∈ q i ++ l.waiting i, c.Proper
  flow : ∀ i, (L.accepted i).flatMap MemengineCmd.bursts =
    L.issued i ++ (l.pending i ++ (q i ++ l.waiting i).flatMap MemengineCmd.bursts)
  outs1 : ∀ i, (l.outs1 i).toNat = (q i).length
  outs0 : ∀ i, (l.outs0 i).toNat + L.answered i = (L.accepted i).length
  outs0_le : ∀ i, (l.outs0 i).toNat ≤ cmdQDepth
  outfs : ∀ i, L.answered i + (l.outfs i).items.length = L.finished i
  finished_le : ∀ i, L.finished i ≤ (L.issued i).countP MemengineCmd.isLast
  credit : ∀ i, l.buffCap i = BitVec.ofNat 16 (L.credit i)
  phase : l.Phase dataWidthBytes L.credit q

/-! ## Small facts -/

/-- The number of commands fits its counter. -/
lemma cmdQDepth_lt (cmdQDepth : ℕ) : cmdQDepth < 2 ^ outCntSz cmdQDepth := by
  have h := le_two_pow_tlog cmdQDepth
  have hpos : 0 < 2 ^ tlog cmdQDepth := Nat.two_pow_pos _
  rw [outCntSz, Nat.pow_add]
  omega

/-- Counting up below the bound. -/
lemma counter_add_one {w : ℕ} {x : BitVec w} {m : ℕ} (hx : x.toNat < m) (hm : m < 2 ^ w) :
    (x + 1).toNat = x.toNat + 1 := by
  have h1 : 1 < 2 ^ w := by omega
  rw [BitVec.ofNat_eq_ofNat, BitVec.toNat_add, BitVec.toNat_ofNat, Nat.mod_eq_of_lt h1,
    Nat.mod_eq_of_lt (by omega)]

/-- Counting down above zero. -/
lemma counter_sub_one {w : ℕ} {x : BitVec w} (hx : 0 < x.toNat) : (x - 1).toNat = x.toNat - 1 := by
  have hlt := x.isLt
  have h1 : 1 < 2 ^ w := by omega
  rw [BitVec.ofNat_eq_ofNat, BitVec.toNat_sub, BitVec.toNat_ofNat, Nat.mod_eq_of_lt h1,
    show 2 ^ w - 1 + x.toNat = (x.toNat - 1) + 2 ^ w by omega, Nat.add_mod_right,
    Nat.mod_eq_of_lt (by omega)]

/-- Each command has one last burst. -/
lemma countP_isLast_flatMap {cs : List MemengineCmd} (h : ∀ c ∈ cs, c.Proper) :
    (cs.flatMap MemengineCmd.bursts).countP MemengineCmd.isLast = cs.length := by
  induction cs with
  | nil => rfl
  | cons c cs ih =>
    rw [List.flatMap_cons, List.countP_append,
      MemengineCmd.countP_isLast_bursts (h c List.mem_cons_self),
      ih fun d hd => h d (List.mem_cons_of_mem _ hd), List.length_cons, Nat.add_comm]

/-- The funnel takes commands along the paths of their servers. -/
lemma cmd_follows : (cmdPaths numServers).Follows
    (funnelRoute numServers (bitsPerCycle numServers)) := funnel_follows _ _ _

variable {dataWidthBytes : ℕ} {L : Ledger numServers} {l l' : Loader cmdQDepth numServers}
  {q : Fin numServers → List MemengineCmd}

/-- A phase does not depend on the queues behind their heads, nor on credit that is not lost. -/
lemma Phase.congr {credit credit' : Fin numServers → ℕ} {q' : Fin numServers → List MemengineCmd}
    (h : l.Phase dataWidthBytes credit q) (hp : l'.loadInProgress = l.loadInProgress)
    (hresp : l'.cmdBuf.resp = l.cmdBuf.resp) (hb : l'.loadfB = l.loadfB)
    (hidx : l'.loadIdx = l.loadIdx) (hcredit : ∀ i, credit i ≤ credit' i)
    (hq : ∀ i c cs, q i = c :: cs → ∃ cs', q' i = c :: cs') :
    l'.Phase dataWidthBytes credit' q' where
  idle hp' := by
    rw [hresp, hb]
    exact h.idle (hp ▸ hp')
  busy hp' := by
    obtain ⟨i, c, cs, hi, hqi, hphase⟩ := h.busy (hp ▸ hp')
    obtain ⟨cs', hcs⟩ := hq i c cs hqi
    refine ⟨i, c, cs', by rw [hidx, hi], hcs, ?_⟩
    rw [hresp, hb]
    rcases hphase with hphase | ⟨hr, cond0, hf, hc⟩
    · exact .inl hphase
    · exact .inr ⟨hr, cond0, hf, fun h0 => (hc h0).trans (hcredit i)⟩

/-- **The queues of commands do not overflow**: the commands of a server in its queue and in the funnel
are among those accepted and not answered. -/
lemma Keeps.room (h : l.Keeps dataWidthBytes L q) (i : Fin numServers) :
    (q i).length + (l.waiting i).length + (L.finished i - L.answered i) ≤ (l.outs0 i).toNat := by
  have hflow := congrArg (List.countP MemengineCmd.isLast) (h.flow i)
  rw [countP_isLast_flatMap (h.accepted_proper i), List.countP_append, List.countP_append,
    countP_isLast_flatMap (h.proper i), List.length_append] at hflow
  have h₁ := h.outs0 i
  have h₂ := h.outfs i
  have h₃ := h.finished_le i
  omega

/-! ## The operations -/

/-- After reset. -/
lemma keeps_reset (hd : 0 < cmdQDepth) (credit : ℕ)
    (buff : BitVec (buffAddrSz numServers cmdQDepth) → MemengineCmd) :
    (Loader.reset cmdQDepth numServers (BitVec.ofNat 16 credit) buff).Keeps dataWidthBytes
      (.start numServers credit) fun _ => [] := by
  have hwait : ∀ i d, (Net.empty : Net (cmdCap numServers) (Fin numServers × MemengineCmd)).stream
      (cmdPaths numServers) i d = [] := by
    intro i d
    induction d with
    | zero => rfl
    | succ d ih => rw [Net.stream, ih]; rfl
  refine
    { holds := UGBramFifos.holds_reset hd buff
      confined := fun n x hx => by cases hx
      levels := fun n x hx => by cases hx
      accepted_proper := fun i c hc => by cases hc
      proper := fun i c hc => ?_
      flow := fun i => ?_
      outs1 := fun i => rfl
      outs0 := fun i => rfl
      outs0_le := fun i => Nat.zero_le _
      outfs := fun i => rfl
      finished_le := fun i => Nat.le_refl _
      credit := fun i => rfl
      phase := ⟨fun _ => ⟨rfl, rfl⟩, fun hp => by cases hp⟩ }
  · rw [waiting, reset, hwait] at hc
    cases hc
  · rw [waiting, reset, hwait]
    rfl

/-- A command is accepted. -/
lemma Keeps.put (h : l.Keeps dataWidthBytes L q) {i : Fin numServers} {c : MemengineCmd}
    (hc : c.Proper) (hs : l.put i c = some l') :
    l'.Keeps dataWidthBytes (L.accept i c) q ∧ l'.loadfC = l.loadfC := by
  simp only [Loader.put, Option.ite_none_right_eq_some, bind, pure, Option.bind_eq_some_iff,
    Option.some.injEq] at hs
  obtain ⟨hlt, cmdsIn, henq, rfl⟩ := hs
  have hbound := cmdQDepth_lt cmdQDepth
  rw [BitVec.lt_def, BitVec.toNat_ofNat, Nat.mod_eq_of_lt hbound] at hlt
  have htop : (cmdPaths numServers).pos i (stages numServers (bitsPerCycle numServers)) =
      (stages numServers (bitsPerCycle numServers), i.val) := funnelPaths_top _ _ _ i
  have hwait : ∀ j, cmdsIn.stream (cmdPaths numServers) j
      (stages numServers (bitsPerCycle numServers) + 1) = l.waiting j ++ if i = j then [c] else [] :=
    fun j => Net.stream_enq cmd_follows henq htop
  refine ⟨
    { holds := h.holds
      confined := Net.Everywhere.enq h.confined henq htop
      levels := h.levels.enq henq (Nat.le_refl _)
      accepted_proper := fun j d hd => ?_
      proper := fun j d hd => ?_
      flow := fun j => ?_
      outs1 := h.outs1
      outs0 := fun j => ?_
      outs0_le := fun j => ?_
      outfs := h.outfs
      finished_le := h.finished_le
      credit := h.credit
      phase := h.phase.congr rfl rfl rfl rfl (fun _ => Nat.le_refl _) fun i c cs hq => ⟨cs, hq⟩ }, rfl⟩
  · by_cases hj : j = i
    · subst hj
      simp only [Ledger.accept, Function.update_self, List.mem_append, List.mem_singleton] at hd
      rcases hd with hd | rfl
      · exact h.accepted_proper j d hd
      · exact hc
    · simp only [Ledger.accept, Function.update_of_ne hj] at hd
      exact h.accepted_proper j d hd
  · simp only [waiting, hwait, List.mem_append] at hd
    rcases hd with hd | hd | hd
    · exact h.proper j d (List.mem_append_left _ hd)
    · exact h.proper j d (List.mem_append_right _ hd)
    · split at hd
      · rw [List.mem_singleton.mp hd]
        exact hc
      · cases hd
  · have hflow := h.flow j
    simp only [waiting, hwait]
    by_cases hj : j = i
    · subst hj
      simp only [Ledger.accept, Function.update_self, if_true, List.flatMap_append, hflow,
        List.append_assoc, List.flatMap_singleton]
      rfl
    · have hij : i ≠ j := fun he => hj he.symm
      simp only [Ledger.accept, Function.update_of_ne hj, hij, if_false, List.append_nil, hflow]
      rfl
  · have h₀ := h.outs0 j
    by_cases hj : j = i
    · subst hj
      simp only [Ledger.accept, Function.update_self, List.length_append, List.length_singleton]
      rw [counter_add_one hlt hbound]
      omega
    · simpa [Ledger.accept, Function.update_of_ne hj] using h₀
  · by_cases hj : j = i
    · subst hj
      simp only [Function.update_self]
      rw [counter_add_one hlt hbound]
      omega
    · simpa [Function.update_of_ne hj] using h.outs0_le j

/-- A completion is fetched. -/
lemma Keeps.get (h : l.Keeps dataWidthBytes L q) {i : Fin numServers} (hs : l.get i = some l') :
    l'.Keeps dataWidthBytes (L.answer i) q ∧ l'.loadfC = l.loadfC := by
  simp only [Loader.get, bind, pure, Option.bind_eq_some_iff, Prod.exists, Fifo.deq_eq_some,
    Option.some.injEq] at hs
  obtain ⟨u, outf, hdeq, rfl⟩ := hs
  have hlen := congrArg List.length hdeq
  rw [List.length_cons] at hlen
  have hfin := h.outfs i
  have hroom := h.room i
  have hpos : 0 < (l.outs0 i).toNat := by omega
  refine ⟨{ h with
      outs0 := fun j => ?_
      outs0_le := fun j => ?_
      outfs := fun j => ?_
      finished_le := h.finished_le
      credit := h.credit
      phase := h.phase.congr rfl rfl rfl rfl (fun _ => Nat.le_refl _) fun i c cs hq => ⟨cs, hq⟩ }, rfl⟩
  · have h₀ := h.outs0 j
    by_cases hj : j = i
    · subst hj
      simp only [Ledger.answer, Function.update_self]
      rw [counter_sub_one hpos]
      omega
    · simpa [Ledger.answer, Function.update_of_ne hj] using h₀
  · by_cases hj : j = i
    · subst hj
      have hle := h.outs0_le j
      simp only [Function.update_self]
      rw [counter_sub_one hpos]
      omega
    · simpa [Function.update_of_ne hj] using h.outs0_le j
  · by_cases hj : j = i
    · subst hj
      simp only [Ledger.answer, Function.update_self]
      omega
    · simpa [Ledger.answer, Function.update_of_ne hj] using h.outfs j

/-- A command moves on in the funnel. -/
lemma Keeps.moveCmd (h : l.Keeps dataWidthBytes L q) {n : Node} (hs : l.moveCmd n = some l') :
    l'.Keeps dataWidthBytes L q ∧ l'.loadfC = l.loadfC := by
  simp only [Loader.moveCmd, bind, pure, Option.bind_eq_some_iff, Option.some.injEq] at hs
  obtain ⟨cmdsIn, hmove, rfl⟩ := hs
  have hlevel : n.1 ≤ stages numServers (bitsPerCycle numServers) := by
    obtain ⟨x, m, y, -, -, hroute, -⟩ := Net.move_eq_some hmove
    simp only [funnelRoute, Option.ite_none_right_eq_some] at hroute
    exact hroute.1.2.1
  have hwait : ∀ j, cmdsIn.stream (cmdPaths numServers) j
      (stages numServers (bitsPerCycle numServers) + 1) = l.waiting j :=
    fun j => Net.stream_move cmd_follows h.confined hmove (Nat.lt_succ_of_le hlevel)
  exact ⟨
    { holds := h.holds
      confined := h.confined.move cmd_follows hmove
      levels := h.levels.move hmove fun hle hroute => by
        simp only [funnelRoute, Option.ite_none_right_eq_some, Option.some.injEq, Prod.mk.injEq] at hroute
        obtain ⟨-, rfl, -⟩ := hroute
        exact (Nat.sub_le _ _).trans hle
      accepted_proper := h.accepted_proper
      proper := fun j c hc => h.proper j c (by rwa [waiting, hwait] at hc)
      flow := fun j => by
        rw [waiting, hwait]
        exact h.flow j
      outs1 := h.outs1
      outs0 := h.outs0
      outs0_le := h.outs0_le
      outfs := h.outfs
      finished_le := h.finished_le
      credit := h.credit
      phase := h.phase.congr rfl rfl rfl rfl (fun _ => Nat.le_refl _) fun i c cs hq => ⟨cs, hq⟩ }, rfl⟩

/-- A command goes from the funnel into its queue. -/
lemma Keeps.storeCmd (h : l.Keeps dataWidthBytes L q) {i : Fin numServers}
    (hs : l.storeCmd = some (i, l')) :
    ∃ c, l.waiting i = c :: l'.waiting i ∧ l'.loadfC = l.loadfC ∧
      l'.Keeps dataWidthBytes L (Function.update q i (q i ++ [c])) := by
  simp only [Loader.storeCmd, bind, pure, Option.bind_eq_some_iff, Prod.exists, Option.some.injEq,
    Prod.mk.injEq] at hs
  obtain ⟨idx, c, cmdsIn, hdeq, rfl, rfl⟩ := hs
  have hbottom : (cmdPaths numServers).pos idx 0 = (0, 0) :=
    funnelPaths_bottom (bitsPerCycle_pos numServers) _ _ idx.isLt
  have hwait : ∀ j, l.waiting j = (if idx = j then [c] else []) ++ cmdsIn.stream (cmdPaths numServers) j
      (stages numServers (bitsPerCycle numServers) + 1) :=
    fun j => Net.stream_deq cmd_follows _ hdeq hbottom
  have hroom := h.room idx
  have hle := h.outs0_le idx
  have hbound := cmdQDepth_lt cmdQDepth
  have houts1 := h.outs1 idx
  have hlen : (l.waiting idx).length = 1 + (cmdsIn.stream (cmdPaths numServers) idx
      (stages numServers (bitsPerCycle numServers) + 1)).length := by
    rw [hwait idx, if_pos rfl, List.length_append, List.length_singleton]
  -- the command is after those in the queue and before those in the funnel, as it was
  have hall : ∀ j, Function.update q idx (q idx ++ [c]) j ++ cmdsIn.stream (cmdPaths numServers) j
      (stages numServers (bitsPerCycle numServers) + 1) = q j ++ l.waiting j := by
    intro j
    rw [hwait j]
    by_cases hj : j = idx
    · subst hj
      simp
    · have hij : idx ≠ j := fun he => hj he.symm
      simp [Function.update_of_ne hj, hij]
  refine ⟨c, by rw [hwait idx]; simp [waiting], rfl,
    { holds := h.holds.enq (by omega) c
      confined := Net.Everywhere.deq h.confined hdeq
      levels := h.levels.deq hdeq
      accepted_proper := h.accepted_proper
      proper := fun j d hd => h.proper j d (by rwa [waiting, hall] at hd)
      flow := fun j => by
        rw [waiting, hall]
        exact h.flow j
      outs1 := fun j => ?_
      outs0 := h.outs0
      outs0_le := h.outs0_le
      outfs := h.outfs
      finished_le := h.finished_le
      credit := h.credit
      phase := h.phase.congr rfl rfl rfl rfl (fun _ => Nat.le_refl _) fun j d cs hq => ?_ }⟩
  · by_cases hj : j = idx
    · subst hj
      simp only [Function.update_self, List.length_append, List.length_singleton]
      rw [counter_add_one (m := cmdQDepth) (by omega) hbound, houts1]
    · simpa [Function.update_of_ne hj] using h.outs1 j
  · by_cases hj : j = idx
    · subst hj
      exact ⟨cs ++ [c], by simp [hq]⟩
    · exact ⟨cs, by rwa [Function.update_of_ne hj]⟩

/-- The loader turns to a server: it asks for the oldest command, or goes on when there is none. -/
lemma Keeps.loadCtxtA (h : l.Keeps dataWidthBytes L q) (hs : l.loadCtxtA = some l') :
    l'.Keeps dataWidthBytes L q ∧ l'.loadfC = l.loadfC := by
  simp only [Loader.loadCtxtA, Option.ite_none_left_eq_some, bind, pure,
    Option.bind_eq_some_iff] at hs
  obtain ⟨hidle, i, hi, hs⟩ := hs
  rw [Bool.not_eq_true] at hidle
  obtain ⟨hresp, hb⟩ := h.phase.idle hidle
  split at hs
  · rename_i hpos
    simp only [Option.bind_eq_some_iff, Option.some.injEq] at hs
    obtain ⟨cmdBuf, hreq, rfl⟩ := hs
    obtain ⟨c, cs, hq⟩ : ∃ c cs, q i = c :: cs := by
      refine List.exists_cons_of_ne_nil fun hnil => ?_
      have houts1 := h.outs1 i
      rw [hnil, List.length_nil] at houts1
      rw [gt_iff_lt, BitVec.lt_def, houts1] at hpos
      simp at hpos
    obtain ⟨hholds, hresp'⟩ := h.holds.firstReq hq hreq
    rw [hresp, List.nil_append] at hresp'
    exact ⟨
      { h with
        holds := hholds
        proper := h.proper
        flow := h.flow
        phase := ⟨fun hp => (by cases hp), fun _ => ⟨i, c, cs, hi, hq, .inl ⟨hresp', hb⟩⟩⟩ }, rfl⟩
  · simp only [Option.some.injEq] at hs
    subst hs
    exact ⟨
      { h with
        proper := h.proper
        flow := h.flow
        phase := ⟨fun _ => ⟨hresp, hb⟩, fun hp => by simp [hidle] at hp⟩ }, rfl⟩

/-- The tests for a burst. The counter of the credit may have come round, but then it is too small. -/
lemma Keeps.loadCtxtB (h : l.Keeps dataWidthBytes L q)
    (hs : l.loadCtxtB dataWidthBytes = some l') :
    l'.Keeps dataWidthBytes L q ∧ l'.loadfC = l.loadfC := by
  simp only [Loader.loadCtxtB, bind, pure, Option.bind_eq_some_iff, Prod.exists, Fifo.enq_eq_some,
    Option.some.injEq] at hs
  obtain ⟨c, cmdBuf, hresp, i, hi, loadfB, ⟨-, hb⟩, rfl⟩ := hs
  obtain ⟨hholds, hitems⟩ := h.holds.firstResp hresp
  have hbusy : l.loadInProgress = true := by
    by_contra hidle
    rw [Bool.not_eq_true] at hidle
    rw [(h.phase.idle hidle).1] at hitems
    cases hitems
  obtain ⟨i', c', cs, hi', hq, hphase⟩ := h.phase.busy hbusy
  obtain rfl : i = i' := by simpa [hi] using hi'
  rcases hphase with ⟨hresp', hb'⟩ | ⟨hresp', -⟩
  · rw [hresp'] at hitems
    injection hitems with hc hrest
    subst hc
    rw [hb', List.nil_append] at hb
    refine ⟨
      { h with
        holds := hholds
        proper := h.proper
        flow := h.flow
        phase := ⟨fun hp => (by simp [hbusy] at hp), fun _ =>
          ⟨i, c', cs, hi, hq, .inr ⟨hrest.symm, _, hb, fun hcond => ?_⟩⟩⟩ }, rfl⟩
    have hlt := (c'.burstLen >>> beatShift dataWidthBytes).isLt
    rw [decide_eq_true_iff, ge_iff_le, BitVec.le_def, h.credit i, BitVec.toNat_setWidth,
      Nat.mod_eq_of_lt (by omega), BitVec.toNat_ofNat] at hcond
    exact hcond.trans (Nat.mod_le _ _)
  · rw [hresp'] at hitems
    cases hitems

/-- The first burst of a command, and the rest. -/
lemma bursts_cons {c : MemengineCmd} (hp : c.Proper) (cs : List MemengineCmd) :
    (c :: cs).flatMap MemengineCmd.bursts =
      c :: ((if c.isLast then cs else c.next :: cs).flatMap MemengineCmd.bursts) := by
  cases hl : c.isLast with
  | true => simp [MemengineCmd.bursts_of_isLast hl]
  | false => simp [MemengineCmd.bursts_of_not_isLast hp.burstLen_pos hl]

/-- Taking credit that is there. -/
lemma ofNat_sub_setWidth {a : ℕ} {c : MemengineCmd} (h : c.fullBeats dataWidthBytes ≤ a) :
    BitVec.ofNat 16 a - (c.burstLen >>> beatShift dataWidthBytes).setWidth 16 =
      BitVec.ofNat 16 (a - c.fullBeats dataWidthBytes) := by
  have hset : (c.burstLen >>> beatShift dataWidthBytes).setWidth 16 =
      BitVec.ofNat 16 (c.fullBeats dataWidthBytes) := by
    rw [MemengineCmd.fullBeats, BitVec.ofNat_toNat]
  obtain ⟨d, rfl⟩ := Nat.exists_eq_add_of_le' h
  rw [hset, Nat.add_sub_cancel, BitVec.ofNat_add, BitVec.add_sub_cancel]

/-- The loader goes on without a burst. -/
lemma Keeps.loadCtxtC_none (h : l.Keeps dataWidthBytes L q)
    (hs : l.loadCtxtC dataWidthBytes = some (l', none)) :
    l'.Keeps dataWidthBytes L q ∧ l'.loadfC = l.loadfC := by
  simp only [Loader.loadCtxtC, bind, pure, Option.bind_eq_some_iff, Prod.exists] at hs
  obtain ⟨c, cond0, cond1, loadfB, hb, i, hi, hs⟩ := hs
  rw [Fifo.deq_eq_some] at hb
  have hbusy : l.loadInProgress = true := by
    by_contra hidle
    rw [Bool.not_eq_true] at hidle
    rw [(h.phase.idle hidle).2] at hb
    cases hb
  obtain ⟨i', c', cs, hi', hq, hphase⟩ := h.phase.busy hbusy
  rcases hphase with ⟨-, hb'⟩ | ⟨hresp, cond, hb', hcond⟩
  · rw [hb'] at hb
    cases hb
  · rw [hb'] at hb
    injection hb with hc hrest
    split at hs
    · simp only [Option.bind_eq_some_iff] at hs
      obtain ⟨loadfC, -, hs⟩ := hs
      split at hs
      · simp at hs
      · simp [Option.bind_eq_some_iff] at hs
    · simp only [Option.some.injEq, Prod.mk.injEq, and_true] at hs
      subst hs
      refine ⟨{ h with
          proper := h.proper
          flow := h.flow
          phase := ⟨fun _ => ⟨hresp, hrest.symm⟩, fun hp => by cases hp⟩ }, rfl⟩

/-- What `loadCtxtC` does when it hands on a burst: only the queue and its counter depend on whether the burst
is the last of its command. -/
lemma Keeps.loadCtxtC_cases (h : l.Keeps dataWidthBytes L q) {i : Fin numServers} {c : MemengineCmd}
    (hs : l.loadCtxtC dataWidthBytes = some (l', some (i, c))) :
    ∃ cs loadfB loadfC cmdBuf outs1, l' = { l with
        loadInProgress := false
        loadIdx := l.loadIdx + 1
        loadfB
        loadfC
        buffCap := Function.update l.buffCap i
          (l.buffCap i - (c.burstLen >>> beatShift dataWidthBytes).setWidth 16)
        cmdBuf
        outs1 } ∧
      q i = c :: cs ∧ c.fullBeats dataWidthBytes ≤ L.credit i ∧ loadfB.items = [] ∧
      loadfC.items = l.loadfC.items ++ [(i, c)] ∧
      cmdBuf.Holds (Function.update q i (if c.isLast then cs else c.next :: cs)) ∧ cmdBuf.resp.items = [] ∧
      ∀ k, (outs1 k).toNat = (Function.update q i (if c.isLast then cs else c.next :: cs) k).length := by
  simp only [Loader.loadCtxtC, bind, pure, Option.bind_eq_some_iff, Prod.exists] at hs
  obtain ⟨d, cond0, cond1, loadfB, hb, j, hj, hs⟩ := hs
  rw [Fifo.deq_eq_some] at hb
  have hbusy : l.loadInProgress = true := by
    by_contra hidle
    rw [Bool.not_eq_true] at hidle
    rw [(h.phase.idle hidle).2] at hb
    cases hb
  obtain ⟨i', c', cs, hi', hq, hphase⟩ := h.phase.busy hbusy
  obtain rfl : j = i' := by simpa [hj] using hi'
  rcases hphase with ⟨-, hb'⟩ | ⟨hresp, cond, hb', hcond⟩
  · rw [hb'] at hb
    cases hb
  rw [hb'] at hb
  injection hb with hc hrest
  simp only [Prod.mk.injEq] at hc
  obtain ⟨rfl, rfl, rfl⟩ := hc
  split at hs
  · rename_i hcond0
    simp only [Option.bind_eq_some_iff, Fifo.enq_eq_some] at hs
    obtain ⟨loadfC, ⟨-, hloadfC⟩, hs⟩ := hs
    have hle : c'.fullBeats dataWidthBytes ≤ L.credit j := hcond hcond0
    split at hs
    · rename_i hlast
      simp only [Option.some.injEq, Prod.mk.injEq] at hs
      obtain ⟨rfl, rfl, rfl⟩ := hs
      refine ⟨cs, loadfB, loadfC, _, _, rfl, hq, hle, hrest.symm, hloadfC, ?_, hresp, fun k => ?_⟩
      · rw [if_pos hlast]
        exact h.holds.deq hq
      · have houts1 := h.outs1 j
        rw [hq, List.length_cons] at houts1
        by_cases hk : k = j
        · subst hk
          simp only [Function.update_self, if_pos hlast]
          rw [counter_sub_one (by omega)]
          omega
        · simpa [Function.update_of_ne hk] using h.outs1 k
    · rename_i hlast
      simp only [Option.bind_eq_some_iff, Option.some.injEq, Prod.mk.injEq] at hs
      obtain ⟨cmdBuf, hupd, rfl, rfl, rfl⟩ := hs
      obtain ⟨hholds, hresp'⟩ := h.holds.updHead hq hupd
      refine ⟨cs, loadfB, loadfC, _, _, rfl, hq, hle, hrest.symm, hloadfC, ?_, by rw [hresp', hresp],
        fun k => ?_⟩
      · rw [if_neg hlast]
        exact hholds
      · have houts1 := h.outs1 k
        by_cases hk : k = j
        · subst hk
          rw [hq] at houts1
          simpa [if_neg hlast] using houts1
        · simpa [Function.update_of_ne hk] using houts1
  · simp at hs

/-- The loader hands on a burst, the next of the server in turn, for which there is credit. -/
lemma Keeps.loadCtxtC_some (h : l.Keeps dataWidthBytes L q) {i : Fin numServers} {c : MemengineCmd}
    (hs : l.loadCtxtC dataWidthBytes = some (l', some (i, c))) :
    ∃ cs, q i = c :: cs ∧ c.fullBeats dataWidthBytes ≤ L.credit i ∧
      l'.loadfC.items = l.loadfC.items ++ [(i, c)] ∧
      l'.Keeps dataWidthBytes (L.setCredit i (L.credit i - c.fullBeats dataWidthBytes))
        (Function.update q i (if c.isLast then cs else c.next :: cs)) := by
  obtain ⟨cs, loadfB, loadfC, cmdBuf, outs1, hl, hq, hle, hloadfB, hloadfC, hholds, hresp, houts1⟩ :=
    h.loadCtxtC_cases hs
  have hproper : c.Proper := h.proper i c (List.mem_append_left _ (hq ▸ List.mem_cons_self))
  have hpend : ∀ k, l'.pending k = l.pending k ++ if i = k then [c] else [] := by
    intro k
    rw [hl]
    simp only [pending, hloadfC, List.filter_append, List.map_append]
    by_cases hk : i = k
    · simp [hk]
    · simp [hk]
  subst hl
  refine ⟨cs, hq, hle, hloadfC,
    { holds := hholds
      confined := h.confined
      levels := h.levels
      accepted_proper := h.accepted_proper
      proper := fun k d hd => ?_
      flow := fun k => ?_
      outs1 := houts1
      outs0 := h.outs0
      outs0_le := h.outs0_le
      outfs := h.outfs
      finished_le := h.finished_le
      credit := fun k => ?_
      phase := ⟨fun _ => ⟨hresp, hloadfB⟩, fun hp => by cases hp⟩ }⟩
  · rcases List.mem_append.mp hd with hd | hd
    · by_cases hk : k = i
      · subst hk
        rw [Function.update_self] at hd
        split at hd
        · exact h.proper k d (List.mem_append_left _ (hq ▸ List.mem_cons_of_mem _ hd))
        · rename_i hlast
          rcases List.mem_cons.mp hd with rfl | hd
          · exact hproper.next (by simpa using hlast)
          · exact h.proper k d (List.mem_append_left _ (hq ▸ List.mem_cons_of_mem _ hd))
      · rw [Function.update_of_ne hk] at hd
        exact h.proper k d (List.mem_append_left _ hd)
    · exact h.proper k d (List.mem_append_right _ hd)
  · rw [hpend k]
    have hflow := h.flow k
    by_cases hk : k = i
    · subst hk
      rw [hq, List.flatMap_append, bursts_cons hproper] at hflow
      simpa [waiting, Ledger.setCredit] using hflow
    · have hik : i ≠ k := fun he => hk he.symm
      simpa [waiting, Ledger.setCredit, Function.update_of_ne hk, hik] using hflow
  · by_cases hk : k = i
    · subst hk
      simp only [Ledger.setCredit, Function.update_self]
      rw [h.credit k, ofNat_sub_setWidth hle]
    · simpa [Ledger.setCredit, Function.update_of_ne hk] using h.credit k

/-- A burst is taken. -/
lemma Keeps.takeBurst (h : l.Keeps dataWidthBytes L q) {i : Fin numServers} {c : MemengineCmd}
    (hs : l.takeBurst = some ((i, c), l')) :
    l.loadfC.items = (i, c) :: l'.loadfC.items ∧ l'.Keeps dataWidthBytes (L.issue i c) q := by
  simp only [Loader.takeBurst, bind, pure, Option.bind_eq_some_iff, Prod.exists, Fifo.deq_eq_some,
    Option.some.injEq, Prod.mk.injEq] at hs
  obtain ⟨j, d, loadfC, hdeq, ⟨rfl, rfl⟩, rfl⟩ := hs
  have hpend : ∀ k, l.pending k = (if j = k then [d] else []) ++
      (loadfC.items.filter fun b => b.1 = k).map Prod.snd := by
    intro k
    rw [pending, hdeq]
    by_cases hk : j = k
    · simp [hk]
    · simp [hk]
  refine ⟨hdeq,
    { h with
      proper := h.proper
      flow := fun k => ?_
      finished_le := fun k => ?_
      phase := h.phase.congr rfl rfl rfl rfl (fun _ => Nat.le_refl _) fun i c cs hq => ⟨cs, hq⟩ }⟩
  · have hflow := h.flow k
    rw [hpend k] at hflow
    by_cases hk : k = j
    · subst hk
      simpa [Ledger.issue, pending, waiting] using hflow
    · have hjk : j ≠ k := fun he => hk he.symm
      simpa [Ledger.issue, Function.update_of_ne hk, hjk, pending, waiting] using hflow
  · have hle := h.finished_le k
    by_cases hk : k = j
    · subst hk
      simp only [Ledger.issue, Function.update_self, List.countP_append]
      omega
    · simpa [Ledger.issue, Function.update_of_ne hk] using hle

/-- Credit is given back. -/
lemma Keeps.giveCredit (h : l.Keeps dataWidthBytes L q) (i : Fin numServers) :
    (l.giveCredit i).Keeps dataWidthBytes (L.setCredit i (L.credit i + 1)) q := by
  refine
    { h with
      proper := h.proper
      flow := h.flow
      credit := fun k => ?_
      phase := h.phase.congr rfl rfl rfl rfl (fun k => ?_) fun i c cs hq => ⟨cs, hq⟩ }
  · by_cases hk : k = i
    · subst hk
      simp only [Loader.giveCredit, Ledger.setCredit, Function.update_self]
      rw [h.credit k, BitVec.ofNat_add]
      rfl
    · simpa [Loader.giveCredit, Ledger.setCredit, Function.update_of_ne hk] using h.credit k
  · by_cases hk : k = i
    · subst hk
      simp [Ledger.setCredit]
    · simp [Ledger.setCredit, Function.update_of_ne hk]

/-- A completion is announced, for which the last burst of a command was taken. -/
lemma Keeps.finish (h : l.Keeps dataWidthBytes L q) {i : Fin numServers} (hs : l.finish i = some l')
    (hlt : L.finished i < (L.issued i).countP MemengineCmd.isLast) :
    l'.Keeps dataWidthBytes (L.finish i) q := by
  simp only [Loader.finish, bind, pure, Option.bind_eq_some_iff, Fifo.enq_eq_some,
    Option.some.injEq] at hs
  obtain ⟨outf, ⟨-, henq⟩, rfl⟩ := hs
  refine
    { h with
      proper := h.proper
      flow := h.flow
      outfs := fun k => ?_
      finished_le := fun k => ?_
      phase := h.phase.congr rfl rfl rfl rfl (fun _ => Nat.le_refl _) fun i c cs hq => ⟨cs, hq⟩ }
  · have houtfs := h.outfs k
    by_cases hk : k = i
    · subst hk
      simp only [Ledger.finish, Function.update_self, henq, List.length_append,
        List.length_singleton]
      omega
    · simpa [Ledger.finish, Function.update_of_ne hk] using houtfs
  · have hle := h.finished_le k
    by_cases hk : k = i
    · subst hk
      simp only [Ledger.finish, Function.update_self]
      omega
    · simpa [Ledger.finish, Function.update_of_ne hk] using hle

/-- A completion is announced with a last burst. -/
lemma Keeps.finishIf (h : l.Keeps dataWidthBytes L q) {i : Fin numServers} {last : Bool}
    (hs : l.finishIf i last = some l')
    (hlt : last = true → L.finished i < (L.issued i).countP MemengineCmd.isLast) :
    l'.Keeps dataWidthBytes
        { L with finished := fun j => L.finished j + if i = j ∧ last = true then 1 else 0 } q ∧
      l'.loadfC = l.loadfC := by
  cases last with
  | false =>
    cases hs
    simpa using h
  | true =>
    have hfin : (fun j => L.finished j + if i = j ∧ true = true then 1 else 0) =
        Function.update L.finished i (L.finished i + 1) := by
      funext j
      by_cases hj : j = i
      · subst hj
        simp
      · have hij : i ≠ j := fun he => hj he.symm
        simp [Function.update_of_ne hj, hij]
    refine ⟨?_, ?_⟩
    · rw [hfin]
      exact h.finish hs (hlt rfl)
    · simp only [Loader.finishIf, if_true, Loader.finish, bind, pure, Option.bind_eq_some_iff,
        Option.some.injEq] at hs
      obtain ⟨outf, -, rfl⟩ := hs
      rfl

end Loader

end Xbsv
