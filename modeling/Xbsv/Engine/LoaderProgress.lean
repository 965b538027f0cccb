import Mathlib.Order.Lattice.Nat
import Xbsv.Engine.Ledger
import Xbsv.Rules.Drain

set_option relaxedAutoImplicit false
set_option autoImplicit false

/-!
# The command loader gets on

As long as there is something to do in the loader, one of its rules can fire, and it leads on: a command
moves towards its queue, a burst is handed on, or the loader comes nearer to the next server that has a
command. The number of servers has to be a power of two, so that the loader never turns to a server that
does not exist.

## Main definitions

* `Xbsv.Loader.turns` — how many servers the loader passes over before it finds a command.
* `Xbsv.Loader.rank` — how far the loader is from handing on a burst.

## Main results

* `Xbsv.Loader.Keeps.exists_command` — commands get into their queues.
* `Xbsv.Loader.Keeps.exists_load` — where there is credit for the commands in the queues, the loader
  hands on a burst after some steps.
-/

namespace Xbsv

open Rules

namespace Loader

variable {dataWidthBytes cmdQDepth numServers m : ℕ} {L : Ledger numServers}
  {l l' : Loader cmdQDepth numServers} {q : Fin numServers → List MemengineCmd}

/-- Every index is that of a server. -/
lemma exists_serverOf (hn : numServers = 2 ^ m) (idx : BitVec (tlog numServers)) :
    ∃ i, serverOf numServers idx = some i := by
  have hlt := idx.isLt
  have hpow : 2 ^ tlog numServers = numServers := by rw [hn, tlog_two_pow]
  exact ⟨⟨idx.toNat, by omega⟩, dif_pos _⟩

/-- The server of its own index. -/
lemma serverOf_ofNat (i : Fin numServers) :
    serverOf numServers (BitVec.ofNat (tlog numServers) i) = some i := by
  have hle := le_two_pow_tlog numServers
  have hlt := i.isLt
  have hval : (BitVec.ofNat (tlog numServers) i).toNat = i := by
    rw [BitVec.toNat_ofNat, Nat.mod_eq_of_lt (by omega)]
  rw [serverOf, dif_pos (by omega)]
  exact congrArg some (Fin.ext hval)

/-- The numbers of servers from the one in turn to one with a command in its queue. -/
def Ahead (l : Loader cmdQDepth numServers) : Set ℕ :=
  {d | ∃ i, serverOf numServers (l.loadIdx + BitVec.ofNat _ d) = some i ∧ 0 < (l.outs1 i).toNat}

/-- How many servers the loader passes over before it finds a command. -/
noncomputable def turns (l : Loader cmdQDepth numServers) : ℕ := sInf l.Ahead

/-- How far the loader is from handing on a burst, if there is credit for it. A burst for which there was
no credit when it was tested costs a round. -/
noncomputable def rank (l : Loader cmdQDepth numServers) : ℕ :=
  if l.loadInProgress then
    match l.loadfB.items with
    | [] => 1
    | b :: _ => if b.2.1 then 0 else 2 ^ tlog numServers + 3
  else 2 + l.turns

/-- The way from the server in turn to one with a command. -/
lemma mem_ahead {i : Fin numServers} (hi : 0 < (l.outs1 i).toNat) :
    (BitVec.ofNat (tlog numServers) i - l.loadIdx).toNat ∈ l.Ahead := by
  refine ⟨i, ?_, hi⟩
  rw [BitVec.ofNat_toNat, BitVec.setWidth_eq, BitVec.add_comm, BitVec.sub_add_cancel]
  exact serverOf_ofNat i

/-- The loader finds a command within a round. -/
lemma turns_lt {i : Fin numServers} (hi : 0 < (l.outs1 i).toNat) : l.turns < 2 ^ tlog numServers :=
  (Nat.sInf_le (mem_ahead hi)).trans_lt (BitVec.ofNat (tlog numServers) i - l.loadIdx).isLt

/-- Passing over a server without commands. -/
lemma turns_succ {i j : Fin numServers} (hj : serverOf numServers l.loadIdx = some j)
    (hempty : (l.outs1 j).toNat = 0) (hi : 0 < (l.outs1 i).toNat) :
    turns { l with loadIdx := l.loadIdx + 1 } < l.turns := by
  obtain ⟨i', hserver, hpos⟩ : l.turns ∈ l.Ahead := Nat.sInf_mem ⟨_, mem_ahead hi⟩
  cases hd : l.turns with
  | zero =>
    rw [hd, BitVec.add_zero, hj] at hserver
    obtain rfl : j = i' := Option.some.inj hserver
    omega
  | succ d =>
    refine Nat.lt_succ_of_le (Nat.sInf_le ⟨i', ?_, hpos⟩)
    rw [← hserver, hd, Nat.add_comm d 1, BitVec.ofNat_add, ← BitVec.add_assoc]
    rfl

/-! ## Steps -/

/-- The nodes of the funnel that are in use. -/
def cmdNodes (numServers : ℕ) : Finset Node :=
  Finset.range (stages numServers (bitsPerCycle numServers) + 1) ×ˢ Finset.range numServers

/-- **Commands get into their queues**: as long as there are commands in the funnel, one goes into its
queue, or one comes nearer to that. -/
lemma Keeps.exists_command (h : l.Keeps dataWidthBytes L q) (hne : ∃ n, l.cmdsIn.items n ≠ []) :
    (∃ i l', l.storeCmd = some (i, l')) ∨ ∃ n l', l.moveCmd n = some l' ∧
      l'.cmdsIn.weight (cmdNodes numServers) Prod.fst <
        l.cmdsIn.weight (cmdNodes numServers) Prod.fst := by
  by_cases hbottom : l.cmdsIn.items (0, 0) = []
  · right
    obtain ⟨n, cmdsIn, hmove, hweight⟩ := exists_funnelMove (bitsPerCycle_pos numServers)
      h.confined h.levels (fun _ x _ => x.1.isLt) hbottom hne 0
    have hlt : cmdsIn.weight (cmdNodes numServers) Prod.fst <
        l.cmdsIn.weight (cmdNodes numServers) Prod.fst := Nat.lt_of_succ_le hweight.ge
    exact ⟨n, { l with cmdsIn }, by simp [Loader.moveCmd, hmove], hlt⟩
  · left
    obtain ⟨⟨i, c⟩, xs, hx⟩ := List.exists_cons_of_ne_nil hbottom
    obtain ⟨cmdsIn, hdeq⟩ := Net.exists_deq hx
    refine ⟨i, { l with
      outs1 := Function.update l.outs1 i (l.outs1 i + 1)
      cmdBuf := l.cmdBuf.enq i c
      cmdsIn }, ?_⟩
    simp only [Loader.storeCmd, hdeq, bind, pure, Option.bind_some]

/-- **The loader hands on a burst after some steps**, if there is credit for the commands in the
queues. -/
lemma Keeps.exists_load (hn : numServers = 2 ^ m) (h : l.Keeps dataWidthBytes L q)
    (hq : ∃ i, q i ≠ []) (hC : l.loadfC.items = [])
    (hcredit : ∀ i c cs, q i = c :: cs → c.fullBeats dataWidthBytes ≤ (l.buffCap i).toNat) :
    (∃ l', l.loadCtxtA = some l' ∧ l'.rank < l.rank ∧ l'.cmdsIn = l.cmdsIn) ∨
    (∃ l', l.loadCtxtB dataWidthBytes = some l' ∧ l'.rank < l.rank ∧ l'.cmdsIn = l.cmdsIn) ∨
    (∃ l', l.loadCtxtC dataWidthBytes = some (l', none) ∧ l'.rank < l.rank ∧ l'.cmdsIn = l.cmdsIn) ∨
    ∃ l' b, l.loadCtxtC dataWidthBytes = some (l', some b) := by
  obtain ⟨i₀, hi₀⟩ := hq
  have hpos₀ : 0 < (l.outs1 i₀).toNat := by
    rw [h.outs1 i₀]
    exact List.length_pos_of_ne_nil hi₀
  cases hbusy : l.loadInProgress with
  | false =>
    left
    obtain ⟨hresp, hb⟩ := h.phase.idle hbusy
    obtain ⟨i, hi⟩ := exists_serverOf hn l.loadIdx
    by_cases hpos : l.outs1 i > 0
    · obtain ⟨resp, hresp', hitems⟩ := Fifo.exists_enq (q := l.cmdBuf.resp)
        (by rw [hresp]; decide) (l.cmdBuf.buff (l.cmdBuf.head i))
      refine ⟨{ l with loadInProgress := true, cmdBuf := { l.cmdBuf with resp } }, ?_, ?_, rfl⟩
      · simp only [Loader.loadCtxtA, hbusy, Bool.false_eq_true, if_false, hi, bind, pure,
          Option.bind_some, hpos, if_true, UGBramFifos.firstReq, hresp']
      · simp [rank, hbusy, hb]
        omega
    · refine ⟨{ l with loadIdx := l.loadIdx + 1 }, ?_, ?_, rfl⟩
      · simp only [Loader.loadCtxtA, hbusy, Bool.false_eq_true, if_false, hi, bind, pure,
          Option.bind_some, hpos]
      · have hzero : (l.outs1 i).toNat = 0 := by
          rw [gt_iff_lt, BitVec.lt_def] at hpos
          simp at hpos
          omega
        have hturns := turns_succ hi hzero hpos₀
        have hrank : rank { l with loadIdx := l.loadIdx + 1 } =
            2 + turns { l with loadIdx := l.loadIdx + 1 } := by
          rw [rank, if_neg (by simp [hbusy])]
        rw [hrank, rank, if_neg (by simp [hbusy])]
        omega
  | true =>
    right
    obtain ⟨i, c, cs, hi, hqi, hphase⟩ := h.phase.busy hbusy
    rcases hphase with ⟨hresp, hb⟩ | ⟨hresp, cond0, hb, -⟩
    · left
      obtain ⟨resp, hresp', -⟩ := Fifo.exists_deq hresp
      have hcond : decide (l.buffCap i ≥ (c.burstLen >>> beatShift dataWidthBytes).setWidth 16) =
          true := by
        have hle := hcredit i c cs hqi
        have hlt := (c.burstLen >>> beatShift dataWidthBytes).isLt
        rw [decide_eq_true_iff, ge_iff_le, BitVec.le_def, BitVec.toNat_setWidth,
          Nat.mod_eq_of_lt (by omega)]
        exact hle
      obtain ⟨loadfB, hB, hitems⟩ := Fifo.exists_enq (q := l.loadfB) (by rw [hb]; decide)
        (c, decide (l.buffCap i ≥ (c.burstLen >>> beatShift dataWidthBytes).setWidth 16), c.isLast)
      refine ⟨{ l with cmdBuf := { l.cmdBuf with resp }, loadfB }, ?_, ?_, rfl⟩
      · simp only [Loader.loadCtxtB, UGBramFifos.firstResp, hresp', hi, hB, bind, pure,
          Option.bind_some]
      · simp only [rank, hbusy, if_true, hb, hitems, List.nil_append, hcond]
        exact Nat.zero_lt_one
    · right
      obtain ⟨loadfB, hB, hitems⟩ := Fifo.exists_deq hb
      cases cond0 with
      | false =>
        left
        refine ⟨{ l with loadInProgress := false, loadIdx := l.loadIdx + 1, loadfB }, ?_, ?_, rfl⟩
        · simp only [Loader.loadCtxtC, hB, hi, bind, pure, Option.bind_some, Bool.false_eq_true,
            if_false]
        · have hturns : turns { l with loadInProgress := false, loadIdx := l.loadIdx + 1, loadfB } <
              2 ^ tlog numServers := turns_lt (i := i₀) hpos₀
          simp only [rank, hbusy, hb, Bool.false_eq_true, if_false, if_true]
          omega
      | true =>
        right
        obtain ⟨loadfC, hC', -⟩ := Fifo.exists_enq (q := l.loadfC) (by rw [hC]; exact Nat.zero_lt_one) (i, c)
        cases hlast : c.isLast with
        | true =>
          refine ⟨{ l with
            loadInProgress := false
            loadIdx := l.loadIdx + 1
            loadfB
            loadfC
            buffCap := Function.update l.buffCap i
              (l.buffCap i - (c.burstLen >>> beatShift dataWidthBytes).setWidth 16)
            outs1 := Function.update l.outs1 i (l.outs1 i - 1)
            cmdBuf := l.cmdBuf.deq i }, (i, c), ?_⟩
          simp only [Loader.loadCtxtC, hB, hi, hC', hlast, bind, pure, Option.bind_some, if_true]
        | false =>
          refine ⟨{ l with
            loadInProgress := false
            loadIdx := l.loadIdx + 1
            loadfB
            loadfC
            buffCap := Function.update l.buffCap i
              (l.buffCap i - (c.burstLen >>> beatShift dataWidthBytes).setWidth 16)
            cmdBuf := { l.cmdBuf with
              buff := Function.update l.cmdBuf.buff (l.cmdBuf.head i) c.next } }, (i, c), ?_⟩
          have hroom : l.cmdBuf.resp.items.length < SGList.bramDepth := by
            rw [hresp]
            decide
          simp only [Loader.loadCtxtC, hB, hi, hC', hlast, bind, pure, Option.bind_some, if_true,
            Bool.false_eq_true, if_false, UGBramFifos.updHead, if_pos hroom]

end Loader

end Xbsv
