import Xbsv.Dma2BRAM.WriteClient

set_option relaxedAutoImplicit false
set_option autoImplicit false

/-!
# The transfers of `mkBRAMWriteClient` come to an end

From every state some steps of the rules and the memory finish the transfer that is going on. This is so where a word
has a power of two of bytes, and not more than 128. The write engine divides the length of a burst by the number of
bytes of a beat with a shift, which makes no beat of a word of three bytes.

## Main definitions

* `Xbsv.Dma2BRAM.BramStores.rank` — how far a transfer is from its end.
* `Xbsv.Dma2BRAM.BramStores.threeBytes` — a transfer of a word of three bytes.

## Main results

* `Xbsv.Dma2BRAM.BramStores.Holds.exists_step` — a transfer gets on.
* `Xbsv.Dma2BRAM.BramStores.stored_of_powerOfTwo` — the transfers.
-/

namespace Xbsv

open Rules MemwriteEngine

namespace Dma2BRAM.BramStores

section Progress

variable {idxWidth dsz nd nb bramDepth k : ℕ} {tr es : List (Event idxWidth dsz nb)}
  {s s' : BramStores idxWidth dsz nd nb bramDepth}

/-- How much there is to happen at the engine for the transfers that were started. -/
def budget (nd : ℕ) (tr : List (Event idxWidth dsz nb)) : ℕ := 8 * ((starts tr).flatMap fun st => st.cmds nd nb).length

/-- How far the transfer that is going on is from its end. -/
noncomputable def rank (tr : List (Event idxWidth dsz nb)) (s : BramStores idxWidth dsz nd nb bramDepth) :
    ℕ ×ₗ ℕ ×ₗ ℕ :=
  toLex (budget nd tr + (if s.busy then 1 else 0) - (record tr).size,
    toLex (2 * (s.client.n.toNat + 1 - s.client.j.toNat) + s.responses.items.length + s.client.we.moves,
      s.client.we.loader.rank))

/-- A step other than the start of a transfer that leads on. -/
def Advances (tr : List (Event idxWidth dsz nb)) (s : BramStores idxWidth dsz nd nb bramDepth) : Prop :=
  ∃ a s' es, (bramStores idxWidth dsz nd nb bramDepth).step s a = some (s', es) ∧ starts es = [] ∧
    rank (tr ++ es) s' < rank tr s

/-- No more happens at the engine than the transfers need. -/
lemma Holds.size_le (hw : nb = 2 ^ k) (hnd : 0 < nd) (h : Holds tr s) : (record tr).size ≤ budget nd tr := by
  obtain ⟨H, hsingles⟩ := h.engine
  obtain ⟨haccepted, hpiped⟩ := h.turn.prefixes hnd
  have hsize := (hsingles.tally hw).size_le
  have hacc := haccepted.length_le
  have hpip := hpiped.length_le
  rw [← Store.length_cmds_eq] at hpip
  rw [budget]
  omega

lemma budget_of_starts (h : starts es = []) : budget nd (tr ++ es) = budget nd tr := by
  rw [budget, starts_append, h, List.append_nil, budget]

/-- Something happens at the engine. -/
lemma Holds.rank_lt_of_size (hw : nb = 2 ^ k) (hnd : 0 < nd) (h' : Holds (tr ++ es) s') (hes : starts es = [])
    (hbusy : s'.busy = s.busy) (hlt : (record tr).size < (record (tr ++ es)).size) :
    rank (tr ++ es) s' < rank tr s := by
  have hle := h'.size_le hw hnd
  rw [budget_of_starts hes] at hle
  refine Prod.Lex.toLex_lt_toLex.mpr (.inl ?_)
  show _ - _ < _ - _
  rw [hbusy, budget_of_starts hes]
  omega

/-- A rule with a method of the engine. -/
lemma Holds.advances (hw : nb = 2 ^ k) (hk : k ≤ 7) (hnd : 0 < nd) (h : Holds tr s) (a : Action idxWidth dsz nb)
    (s' : BramStores idxWidth dsz nd nb bramDepth) (e : MemwriteEngine.Event (8 * nb) 1)
    (he : ∀ i j, e ≠ .burstsOo i j) (hbusy : s'.busy = s.busy)
    (hs : (bramStores idxWidth dsz nd nb bramDepth).step s a = some (s', [.engine e])) : Advances tr s := by
  refine ⟨a, s', [.engine e], hs, rfl, (h.step hw hk hnd hs).rank_lt_of_size hw hnd rfl hbusy ?_⟩
  have hrecord : record (tr ++ [Event.engine e]) = (record tr).add e := record_engine tr [e]
  rw [hrecord, Record.size_add he]
  exact Nat.lt_succ_self _

/-- The engine leads on by itself. -/
lemma Holds.advances_engine (hw : nb = 2 ^ k) (hk : k ≤ 7) (hnd : 0 < nd) (h : Holds tr s)
    (hleads : LeadsOn nb (record tr) s.client.we) : Advances tr s := by
  obtain ⟨a, we, ds, ha, hs, hgains⟩ := hleads
  have hstep : (bramStores idxWidth dsz nd nb bramDepth).step s (.engine a) =
      some ({ s with client := { s.client with we } }, ds.map .engine) := by
    simp only [bramStores, BramStores.step, ha, Bool.false_eq_true, if_false, WriteClient.engine, hs, bind, pure,
      Option.bind_some, Option.map_some]
  refine ⟨.engine a, _, ds.map .engine, hstep, starts_engine ds, ?_⟩
  rcases hgains with hsize | ⟨rfl, hlt⟩
  · refine (h.step hw hk hnd hstep).rank_lt_of_size hw hnd (starts_engine ds) rfl ?_
    rwa [record_engine]
  · rw [List.map_nil, List.append_nil]
    refine Prod.Lex.toLex_lt_toLex.mpr (.inr ⟨rfl, ?_⟩)
    rcases Prod.Lex.toLex_lt_toLex.mp hlt with hmoves | ⟨hmoves, hrank⟩
    · exact Prod.Lex.toLex_lt_toLex.mpr (.inl (Nat.add_lt_add_left hmoves _))
    · exact Prod.Lex.toLex_lt_toLex.mpr (.inr
        ⟨congrArg (2 * (s.client.n.toNat + 1 - s.client.j.toNat) + s.responses.items.length + ·) hmoves, hrank⟩)

/-- The end of the transfer. -/
lemma Holds.advances_finish (hw : nb = 2 ^ k) (hnd : 0 < nd) (h : Holds tr s) (hbusy : s.busy = true)
    (hf : s.client.f.items ≠ []) : Advances tr s := by
  obtain ⟨u, us, hu⟩ := List.exists_cons_of_ne_nil hf
  obtain ⟨f, hdeq, -⟩ := Fifo.exists_deq hu
  refine ⟨.finish, { s with client := { s.client with f }, busy := false }, [.finished], ?_, rfl, ?_⟩
  · simp only [bramStores, BramStores.step, WriteClient.finish, hdeq, bind, pure, Option.bind_some, Option.map_some]
  · have hle := h.size_le hw hnd
    have hrecord : record (tr ++ [Event.finished]) = record tr := record_append _ _
    refine Prod.Lex.toLex_lt_toLex.mpr (.inl ?_)
    show _ - _ < _ - _
    rw [budget_of_starts rfl, hrecord, hbusy, if_pos rfl, if_neg Bool.false_ne_true]
    omega

/-- A response of the engine can be taken. -/
lemma Holds.advances_loadResp (hw : nb = 2 ^ k) (hk : k ≤ 7) (hnd : 0 < nd) (h : Holds tr s)
    (hf : s.client.f.items = []) (hout : (s.client.we.loader.outfs 0).items ≠ []) : Advances tr s := by
  obtain ⟨u, us, hu⟩ := List.exists_cons_of_ne_nil hout
  obtain ⟨outf, hdeq, -⟩ := Fifo.exists_deq hu
  obtain ⟨f, henq⟩ := Fifo.exists_enqIf (q := s.client.f) (b := decide (s.client.n < s.client.i))
    (fun _ => by rw [hf]; exact Nat.zero_lt_one) ()
  refine h.advances hw hk hnd .loadResp { s with client := { s.client with
    f
    we := { s.client.we with loader := { s.client.we.loader with
      outfs := Function.update s.client.we.loader.outfs 0 outf
      outs0 := Function.update s.client.we.loader.outs0 0 (s.client.we.loader.outs0 0 - 1) } } } }
    (.response 0) (fun i j he => by cases he) rfl ?_
  simp only [bramStores, BramStores.step, WriteClient.loadResp, WriteClient.engine, henq, memwriteEngine, Loader.get,
    hdeq, bind, pure, Option.bind_some, Option.map_some]
  rfl

/-- The next word can be asked for, if there has been a response to the one before. -/
lemma Holds.advances_loadReq (hw : nb = 2 ^ k) (hk : k ≤ 7) (hnd : 0 < nd) (h : Holds tr s)
    (hi : s.client.i ≤ s.client.n) (houts : s.client.we.loader.outs0 0 < BitVec.ofNat _ 1)
    (hcmds : ∀ n, s.client.we.loader.cmdsIn.items n = []) : Advances tr s := by
  obtain ⟨cmdsIn, henq⟩ := Net.exists_enq (s := s.client.we.loader.cmdsIn)
    (n := (stages 1 (bitsPerCycle 1), (0 : Fin 1).val)) (by rw [hcmds]; simp [cmdCap, funnelCap])
    ((0 : Fin 1), (⟨s.client.ptr, s.client.off, (BitVec.ofNat 40 nb).setWidth 8,
      (BitVec.ofNat 40 nb).setWidth 32⟩ : MemengineCmd))
  refine h.advances hw hk hnd .loadReq { s with client := { s.client with
    off := s.client.off + BitVec.ofNat 40 nb
    i := s.client.i + BitVec.ofNat _ nd
    we := { s.client.we with
      loader := { s.client.we.loader with
        outs0 := Function.update s.client.we.loader.outs0 0 (s.client.we.loader.outs0 0 + 1)
        cmdsIn }
      writeDataFunnel := s.client.we.writeDataFunnel.setBurstLen 0
        ((BitVec.ofNat 40 nb).setWidth 8 >>> beatShift nb) } } }
    (.accepted 0 ⟨s.client.ptr, s.client.off, (BitVec.ofNat 40 nb).setWidth 8, (BitVec.ofNat 40 nb).setWidth 32⟩)
    (fun i j he => by cases he) rfl ?_
  simp only [bramStores, BramStores.step, WriteClient.loadReq, if_pos hi, WriteClient.engine, memwriteEngine,
    MemwriteEngine.put, Loader.put, if_pos houts, henq, bind, pure, Option.bind_some, Option.map_some]
  rfl

/-- A word can be packed. -/
lemma Holds.advances_drainGeatbox (hw : nb = 2 ^ k) (hk : k ≤ 7) (hnd : 0 < nd) (h : Holds tr s)
    (hgb : nd ≤ s.client.gb.items.length) (hroom : (s.client.we.writeDataBuffs 0).items.length < 256 / nb) :
    Advances tr s := by
  obtain ⟨gb, hdeq⟩ : ∃ gb, s.client.gb.deqN nd = some gb := ⟨_, if_pos hgb⟩
  obtain ⟨q, henq, -⟩ := Fifo.exists_enq hroom (packElements (8 * nb) (s.client.gb.items.take nd))
  refine h.advances hw hk hnd .drainGeatbox { s with client := { s.client with
    gb
    we := { s.client.we with
      writeDataBuffs := Function.update s.client.we.writeDataBuffs 0 q
      loader := s.client.we.loader.giveCredit 0 } } }
    (.piped 0 (packElements (8 * nb) (s.client.gb.items.take nd))) (fun i j he => by cases he) rfl ?_
  simp only [bramStores, BramStores.step, WriteClient.drainGeatbox, WriteClient.engine, hdeq, memwriteEngine,
    MemwriteEngine.pipe, henq, bind, pure, Option.bind_some, Option.map_some]
  rfl

/-- A step that the engine takes no part in. -/
lemma advances_of_lt (a : Action idxWidth dsz nb) (s' : BramStores idxWidth dsz nd nb bramDepth)
    (hs : (bramStores idxWidth dsz nd nb bramDepth).step s a = some (s', [])) (hbusy : s'.busy = s.busy)
    (hwe : s'.client.we = s.client.we)
    (hlt : 2 * (s'.client.n.toNat + 1 - s'.client.j.toNat) + s'.responses.items.length <
      2 * (s.client.n.toNat + 1 - s.client.j.toNat) + s.responses.items.length) : Advances tr s := by
  refine ⟨a, s', [], hs, rfl, ?_⟩
  rw [List.append_nil]
  refine Prod.Lex.toLex_lt_toLex.mpr (.inr ⟨?_, Prod.Lex.toLex_lt_toLex.mpr (.inl ?_)⟩)
  · show _ - _ = _ - _
    rw [hbusy]
  · show _ + _ < _ + _
    rw [hwe]
    exact Nat.add_lt_add_right hlt _

/-- A word that is missing can be brought. -/
lemma Holds.advances_word (hw : nb = 2 ^ k) (hk : k ≤ 7) (hnd : 0 < nd) (hdepth : 0 < bramDepth) (h : Holds tr s)
    {past : List (Store idxWidth dsz)} {st : Store idxWidth dsz} {a p : ℕ} (hfills : Fills past st a p (record tr) s)
    (hmissing : (p + 1) * nd ≤ st.length) (hbuff : (s.client.we.writeDataBuffs 0).items = []) : Advances tr s := by
  have hsucc : (p + 1) * nd = p * nd + nd := Nat.succ_mul p nd
  by_cases hgb : nd ≤ s.client.gb.items.length
  · have hle : 2 ^ k ≤ 2 ^ 7 := Nat.pow_le_pow_right Nat.two_pos hk
    refine h.advances_drainGeatbox hw hk hnd hgb ?_
    rw [hbuff]
    exact Nat.div_pos (by omega) (hw ▸ Nat.two_pow_pos k)
  by_cases hresponses : s.responses.items = []
  · -- the next element can be read
    have hj : s.client.j ≤ s.client.n := by
      rw [hfills.j_le_iff, underWay, hresponses, List.append_nil]
      omega
    obtain ⟨responses, henq, hitems⟩ := Fifo.exists_enq (q := s.responses)
      (by rw [hresponses]; exact hdepth) (s.bram (s.client.j.setWidth _))
    have hj' : (s.client.j + 1).toNat = s.client.j.toNat + 1 := by
      have hn := hfills.n_toNat
      exact toNat_index_succ ((hn ▸ BitVec.le_def.mp hj).trans_lt st.transfer.finish_idx.isLt)
    refine advances_of_lt .bramReq { s with client := { s.client with j := s.client.j + 1 }, responses } ?_ rfl rfl ?_
    · simp only [bramStores, BramStores.step, WriteClient.bramReq, if_pos hj, henq, bind, pure, Option.bind_some]
    · have hlt := BitVec.le_def.mp hj
      show 2 * (s.client.n.toNat + 1 - (s.client.j + 1).toNat) + responses.items.length < _
      rw [hj', hitems, List.length_append, List.length_singleton]
      omega
  · -- a response of the block RAM can be taken
    obtain ⟨rv, rest, hrest⟩ := List.exists_cons_of_ne_nil hresponses
    obtain ⟨responses, hdeq, hitems⟩ := Fifo.exists_deq hrest
    obtain ⟨gb, henq, -⟩ := Fifo.exists_enq (q := s.client.gb) (by omega) rv
    refine advances_of_lt .bramResp { s with client := { s.client with gb }, responses } ?_ rfl rfl ?_
    · simp only [bramStores, BramStores.step, hdeq, WriteClient.bramResp, henq, bind, pure, Option.bind_some]
    · show _ + responses.items.length < _
      rw [hitems, hrest, List.length_cons]
      exact Nat.lt_succ_self _

/-- **A transfer gets on** until it is finished.

**Proof sketch.** Call `finish` if the end is signalled, else take a response, else ask for the next word if there has
been a response to the one before, else bring the elements of the word that the engine waits for. If none of this is to
be done then the engine has a command and its word, and gets on by itself. -/
theorem Holds.exists_step (hw : nb = 2 ^ k) (hk : k ≤ 7) (hnd : 0 < nd) (hdepth : 0 < bramDepth) (h : Holds tr s) :
    s.busy = false ∨ Advances tr s := by
  cases h.turn with
  | idle hbusy _ _ => exact .inl hbusy
  | @busy past st a p hbusy hstarts hfinishes hfills =>
    right
    by_cases hf : s.client.f.items = []
    swap
    · exact h.advances_finish hw hnd hbusy hf
    by_cases hout : (s.client.we.loader.outfs 0).items = []
    swap
    · exact h.advances_loadResp hw hk hnd hf hout
    obtain ⟨H, hsingles⟩ := h.engine
    obtain ⟨haccepted, hloads, hrequests, hwritten, -, hresponses, houts0, houts0_le, hpiped, -, hwritten_le,
      hinjected⟩ := hsingles.tally hw
    rw [hout, List.length_nil, Nat.add_zero] at hresponses
    by_cases hcmds : ∃ n, s.client.we.loader.cmdsIn.items n ≠ []
    · exact h.advances_engine hw hk hnd (hsingles.leadsOn_command hcmds)
    have hnone : ∀ n, s.client.we.loader.cmdsIn.items n = [] := fun n => not_not.mp (not_exists.mp hcmds n)
    by_cases hanswered : (record tr).responses 0 = ((record tr).accepted 0).length
    · -- not all words have been asked for, as the end has not been signalled
      have hne : a * nd ≠ st.length := by
        intro hend
        rw [hfills.f, if_pos ⟨hend, hanswered⟩] at hf
        cases hf
      refine h.advances_loadReq hw hk hnd (hfills.i_le_iff.mpr (lt_of_le_of_ne hfills.a_le hne)) ?_ hnone
      have hzero : (s.client.we.loader.outs0 0).toNat = 0 := by omega
      rw [BitVec.lt_def, hzero]
      decide
    by_cases hdata : (record tr).loads.length < ((record tr).accepted 0).length →
        (record tr).loads.length < ((record tr).piped 0).length
    · exact h.advances_engine hw hk hnd
        (hsingles.exists_gain hw ((Nat.div_le_self _ _).trans_lt (by decide)) hout (by omega) hdata)
    · -- the word of the command has not been packed
      simp only [Classical.not_imp, not_lt] at hdata
      obtain ⟨hlt, hle⟩ := hdata
      have hpa : p < a := by
        have hacc := congrArg List.length hfills.accepted
        have hpip := congrArg List.length hfills.piped
        have hpast := Store.length_cmds_eq nd nb past
        rw [List.length_append, List.length_map, List.length_range] at hacc hpip
        omega
      have hmul : (p + 1) * nd ≤ a * nd := Nat.mul_le_mul_right nd hpa
      refine h.advances_word hw hk hnd hdepth hfills (hmul.trans hfills.a_le) (List.eq_nil_of_length_eq_zero ?_)
      omega

end Progress

/-! ## The transfers -/

/-- **The transfers of a client whose words have a power of two of bytes, and not more than 128**: at every moment the
memory has been asked to take, and has taken, the first words of the transfers at their places; `finish` can be called
only when it has taken and answered all words of the transfers that were started, the last of which has not been
finished; and from there some steps finish that one too, without another start.

**Proof sketch.** The engine has one command at a time, which is for one word (`Singles`). So a response that is taken
when all words have been asked for is that to the last one, and with it all words have been packed, given and answered
(`Fills.packed`, `Holds.complete`). -/
theorem stored_of_powerOfTwo {idxWidth dsz nd bramDepth k : ℕ} (hk : k ≤ 7) (hnd : 0 < nd) (hdepth : 0 < bramDepth)
    {bram : BitVec idxWidth → BitVec dsz} {buff : BitVec (buffAddrSz 1 1) → MemengineCmd}
    {complBuff : BitVec (buffAddrSz 4 16) → BitVec (8 * 2 ^ k) × Bool} {tr : List (Event idxWidth dsz (2 ^ k))}
    {s : BramStores idxWidth dsz nd (2 ^ k) bramDepth}
    (h : (bramStores idxWidth dsz nd (2 ^ k) bramDepth).Reaches (reset bram buff complBuff) tr s) :
    InOrder nd tr ∧
      (∀ client, s.client.finish = some client → Complete nd tr ∧ finishes tr + 1 = (starts tr).length) ∧
      ∃ tr' s', (bramStores idxWidth dsz nd (2 ^ k) bramDepth).Reaches s tr' s' ∧ starts tr' = [] ∧
        finishes (tr ++ tr') = (starts tr).length ∧ Complete nd (tr ++ tr') := by
  have hholds := Holds.of_reaches rfl hk hnd h
  refine ⟨hholds.inOrder rfl hk hnd, fun client hs => hholds.complete_of_finish rfl hk hnd hs, ?_⟩
  have hprogress : ∀ (tr₁ : List (Event idxWidth dsz (2 ^ k))) (s₁ : BramStores idxWidth dsz nd (2 ^ k) bramDepth),
      Holds tr₁ s₁ ∧ starts tr₁ = starts tr → s₁.busy = false ∨ ∃ a s' es,
        (bramStores idxWidth dsz nd (2 ^ k) bramDepth).step s₁ a = some (s', es) ∧
          (Holds (tr₁ ++ es) s' ∧ starts (tr₁ ++ es) = starts tr) ∧ rank (tr₁ ++ es) s' < rank tr₁ s₁ := by
    rintro tr₁ s₁ ⟨h₁, hstarts⟩
    rcases h₁.exists_step rfl hk hnd hdepth with hdone | ⟨a, s', es, hs, hnone, hlt⟩
    · exact .inl hdone
    · refine .inr ⟨a, s', es, hs, ⟨h₁.step rfl hk hnd hs, ?_⟩, hlt⟩
      rw [starts_append, hnone, List.append_nil, hstarts]
  obtain ⟨tr', s', hreach, ⟨h', hstarts⟩, hdone⟩ := RuleSystem.exists_reaches
    (I := fun tr₁ s₁ => Holds tr₁ s₁ ∧ starts tr₁ = starts tr) rank hprogress ⟨hholds, rfl⟩
  rw [starts_append] at hstarts
  have hnone : starts tr' = [] := List.append_right_eq_self.mp hstarts
  refine ⟨tr', s', hreach, hnone, ?_⟩
  cases h'.turn with
  | idle _ hfinishes hidle =>
    refine ⟨?_, h'.complete rfl hk hnd hidle.accepted hidle.answered⟩
    rw [hfinishes, starts_append, hnone, List.append_nil]
  | busy hbusy =>
    rw [hdone] at hbusy
    cases hbusy

/-- The steps of a word, from its elements to the response. -/
def wordSteps (idxWidth dsz nb nd : ℕ) : List (Action idxWidth dsz nb) :=
  (List.replicate nd [.bramReq, .bramResp]).flatten ++ [.drainGeatbox, .loadReq, .engine .storeCmd, .engine .loadCtxtA,
    .engine .loadCtxtB, .engine .loadCtxtC, .engine .writeReq, .engine (.inject 0), .engine .drainFunnel,
    .engine .drainReq, .engine .drainResp, .engine .writeData, .engine .writeDone, .loadResp]

/-- Elements of one byte, two to a word, and a block RAM with its addresses. -/
def twoWords : List (Action 2 8 2) :=
  .start ⟨⟨5, 0x100, 0, 3⟩, fun address => address.setWidth _⟩ :: (wordSteps 2 8 2 2 ++ wordSteps 2 8 2 2)

/-- The memory has both words of the transfer, which can be finished. -/
def twoWordsStored :=
  (bramStores 2 8 2 2 1).run (reset (fun _ => 0) (fun _ => ⟨0, 0, 0, 0⟩) fun _ => (0, false)) twoWords

theorem stored_of_powerOfTwo_twoWords :
    (record twoWordsStored.2).storedTo 2 0 = [((5, 0x100), 0x0100), ((5, 0x102), 0x0302)] ∧
      twoWordsStored.1.client.finish.isSome = true ∧ InOrder 2 twoWordsStored.2 := by
  have hreaches : (bramStores 2 8 2 (2 ^ 1) 1).Reaches (reset (fun _ => 0) (fun _ => ⟨0, 0, 0, 0⟩) fun _ => (0, false))
      twoWordsStored.2 twoWordsStored.1 := RuleSystem.reaches_run _ _
  exact ⟨by decide +kernel, by decide +kernel,
    (stored_of_powerOfTwo (by decide) Nat.two_pos Nat.one_pos hreaches).1⟩

/-! ## Words of three bytes -/

/-- Elements of one byte, three to a word. The shift makes no beat of the word: `writeData` gives it and waits for
more. -/
def threeBytes :=
  (bramStores 2 8 3 3 1).run (reset (fun _ => 0) (fun _ => ⟨0, 0, 0, 0⟩) fun _ => (0, false))
    (.start ⟨⟨5, 0x100, 0, 2⟩, fun address => address.setWidth _⟩ :: (wordSteps 2 8 3 3).dropLast.dropLast)

/-- Nothing is in the funnels. -/
lemma funnels_threeBytes (n : Node) : threeBytes.1.client.we.loader.cmdsIn.items n = [] ∧
    threeBytes.1.client.we.writeDataFunnel.dataIn.items n = [] := by
  by_cases hn : n = (0, 0)
  · subst hn
    exact ⟨rfl, rfl⟩
  · obtain ⟨q₁, q₂, hcmds⟩ : ∃ q₁ q₂, threeBytes.1.client.we.loader.cmdsIn.queue =
        Function.update (Function.update (fun _ => Fifo.empty) ((0, 0) : Node) q₁) (0, 0) q₂ := ⟨_, _, rfl⟩
    obtain ⟨q₃, q₄, hdata⟩ : ∃ q₃ q₄, threeBytes.1.client.we.writeDataFunnel.dataIn.queue =
        Function.update (Function.update (fun _ => Fifo.empty) ((0, 0) : Node) q₃) (0, 0) q₄ := ⟨_, _, rfl⟩
    rw [Net.items, hcmds, Net.items, hdata, Function.update_of_ne hn, Function.update_of_ne hn,
      Function.update_of_ne hn, Function.update_of_ne hn]
    exact ⟨rfl, rfl⟩

lemma move_eq_none {N α : Type} [DecidableEq N] {cap : N → ℕ} {net : Net cap α} {route : N → α → Option (N × α)} {n : N}
    (h : net.items n = []) : net.move route n = none := by
  rw [Net.move, Net.deq, Fifo.deq_eq_none.mpr h]
  rfl

/-- All that can still happen is that the loader looks for a command. -/
lemma step_threeBytes {a : Action 2 8 3} {s' : BramStores 2 8 3 3 1} {es : List (Event 2 8 3)}
    (hs : (bramStores 2 8 3 3 1).step threeBytes.1 a = some (s', es)) : s' = threeBytes.1 ∧ es = [] := by
  cases a with
  | start st => cases hs
  | finish | drainGeatbox | bramReq | bramResp | loadReq | loadResp => cases hs
  | engine a =>
    cases a with
    | put i c | get i | pipe i v => cases hs
    | moveCmd n =>
      have hnone : (bramStores 2 8 3 3 1).step threeBytes.1 (.engine (.moveCmd n)) = none := by
        simp only [bramStores, BramStores.step, Action.byClient, WriteClient.engine, memwriteEngine, Loader.moveCmd,
          move_eq_none (funnels_threeBytes n).1]
        rfl
      cases hnone.symm.trans hs
    | moveData n =>
      have hnone : (bramStores 2 8 3 3 1).step threeBytes.1 (.engine (.moveData n)) = none := by
        simp only [bramStores, BramStores.step, Action.byClient, WriteClient.engine, memwriteEngine,
          BurstFunnel.moveData, move_eq_none (funnels_threeBytes n).2]
        rfl
      cases hnone.symm.trans hs
    | loadCtxtA =>
      have hsame : (bramStores 2 8 3 3 1).step threeBytes.1 (.engine .loadCtxtA) = some (threeBytes.1, []) := rfl
      cases hsame.symm.trans hs
      exact ⟨rfl, rfl⟩
    | inject i =>
      obtain rfl : i = 0 := Subsingleton.elim _ _
      cases hs
    | storeCmd | loadCtxtB | loadCtxtC => cases hs
    | drainFunnel | drainReq | drainResp | writeReq | writeData | writeDone => cases hs

/-- The transfer of a word of three bytes has been started, and can never be finished. -/
theorem not_stored_threeBytes :
    (bramStores 2 8 3 3 1).Reaches (reset (fun _ => 0) (fun _ => ⟨0, 0, 0, 0⟩) fun _ => (0, false)) threeBytes.2
        threeBytes.1 ∧ (starts threeBytes.2).length = 1 ∧
      ∀ tr' s', (bramStores 2 8 3 3 1).Reaches threeBytes.1 tr' s' → finishes (threeBytes.2 ++ tr') = 0 := by
  refine ⟨RuleSystem.reaches_run _ _, by decide +kernel, fun tr' s' hreach => ?_⟩
  obtain ⟨-, rfl⟩ : s' = threeBytes.1 ∧ tr' = [] := by
    refine hreach.invariant (I := fun tr s => s = threeBytes.1 ∧ tr = []) ⟨rfl, rfl⟩ ?_
    rintro tr s a s' es ⟨rfl, rfl⟩ hs
    obtain ⟨hsame, rfl⟩ := step_threeBytes hs
    exact ⟨hsame, rfl⟩
  rw [List.append_nil]
  decide +kernel

end Dma2BRAM.BramStores

end Xbsv
