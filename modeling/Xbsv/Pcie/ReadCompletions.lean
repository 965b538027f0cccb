import Xbsv.Pcie.Completions
import Xbsv.Pcie.MemMasterEngine
import Xbsv.Pcie.Splitter
import Xbsv.Rules.Drain

set_option relaxedAutoImplicit false
set_option autoImplicit false

/-!
# The completions of register reads

A read of `n` words is answered by one packet: the header with the first word, and beats of four words, the last of
which has what is left. Words may arrive early, so that the queue holds words of the next read, and they may be late,
so that the rule for the next beat fires with nothing to send.

## Main definitions

* `Xbsv.Answers` — a packet, or the beginning of one, carries the given words in answer to a read.
* `Xbsv.Completing` — the invariant: the packets that have been sent, and the words of the one under way.

## Main results

* `Xbsv.reads_completed` — reads are answered in order, each by one packet with its words.
-/

namespace Xbsv

open Rules MemMasterEngine

variable {c : MasterConfig} {hdr : TLPMemoryIO3DWHeader} {ws ws' : List (BitVec 32)} {p : List TLPData}
  {t : TLPData}

/-! ## Packets -/

/-- The mask of the first `k` dwords. -/
def firstDwordsMask (k : ℕ) : BitVec 16 := BitVec.allOnes 16 <<< (16 - 4 * k)

/-- The beats carry the words: one in the header, and then four in each beat, but in the last one those
that are left. -/
structure Answers (c : MasterConfig) (hdr : TLPMemoryIO3DWHeader) (ws : List (BitVec 32)) (p : List TLPData) :
    Prop where
  header : p.head?.map TLPData.data = ws.head?.map fun w => (c.completionOf hdr w).pack
  payload : payload p = ws.map byteSwap
  enables : ∀ j t, p[j]? = some t →
    t.be = if j = 0 then 0xffff else firstDwordsMask (min 4 (ws.length - 1 - 4 * (j - 1)))
  length : p.length = 1 + (ws.length + 2) / 4

/-- A packet that has begun goes on with a beat that does not end it. -/
lemma IsPartial.concat (h : IsPartial p) (hne : p ≠ []) (hsof : t.sof = false) (heof : t.eof = false) :
    IsPartial (p ++ [t]) := by
  cases p with
  | nil => exact absurd rfl hne
  | cons t₀ p =>
    refine ⟨⟨h.1.1, fun u hu => ?_⟩, fun u hu => ?_⟩
    · rcases List.mem_append.mp hu with hu | hu
      · exact h.1.2 u hu
      · rwa [List.mem_singleton.mp hu]
    · rcases List.mem_append.mp hu with hu | hu
      · exact h.2 u hu
      · rwa [List.mem_singleton.mp hu]

/-- A packet that has begun ends with a beat that ends it. -/
lemma IsPartial.isPacket_concat (h : IsPartial p) (hne : p ≠ []) (hsof : t.sof = false) (heof : t.eof = true) :
    IsPacket (p ++ [t]) := by
  refine ⟨?_, p, t, rfl, heof, h.2⟩
  cases p with
  | nil => exact absurd rfl hne
  | cons t₀ p =>
    refine ⟨h.1.1, fun u hu => ?_⟩
    rcases List.mem_append.mp hu with hu | hu
    · exact h.1.2 u hu
    · rwa [List.mem_singleton.mp hu]

/-- The first beat of an answer is the header of a completion. -/
lemma isHeader_of_data {w : BitVec 32} (hsof : t.sof = true) (hbe : t.be = 0xffff)
    (hdata : t.data = (c.completionOf hdr w).pack) : t.IsHeader := by
  have hunpack : TLPCompletionHeader.unpack t.data = c.completionOf hdr w := by
    rw [hdata, TLPCompletionHeader.unpack_pack]
  refine ⟨hsof, hbe, ?_, ?_⟩
  · have hformat : (TLPMemoryIO3DWHeader.unpack t.data).format = (TLPCompletionHeader.unpack t.data).format :=
      congrArg TLPPacketFormat.unpack (extractLsb'_extractLsb' t.data (by decide))
    rw [hformat, hunpack]
    rfl
  · have htype : (TLPMemoryIO3DWHeader.unpack t.data).pkttype = (TLPCompletionHeader.unpack t.data).pkttype :=
      extractLsb'_extractLsb' t.data (by decide)
    rw [htype, hunpack]
    rfl

/-- The header is an answer with one word. -/
lemma answers_single {w : BitVec 32} (hsof : t.sof = true) (hbe : t.be = 0xffff)
    (hdata : t.data = (c.completionOf hdr w).pack) : Answers c hdr [w] [t] where
  header := congrArg some hdata
  payload := by
    have hlast : t.data.extractLsb' 0 32 = (TLPCompletionHeader.unpack t.data).data := rfl
    rw [payload_completion (isHeader_of_data hsof hbe hdata), hlast, hdata, TLPCompletionHeader.unpack_pack]
    rfl
  enables j u hu := by
    cases j with
    | zero =>
      cases hu
      exact hbe
    | succ j => simp at hu
  length := by simp

/-- An answer of full beats, with one more beat. -/
lemma Answers.concat (h : Answers c hdr ws p) (hp : IsPartial p) {m : ℕ} (hfull : ws.length = 1 + 4 * m)
    (hpos : 0 < ws'.length) (hle : ws'.length ≤ 4) (hdwords : t.dwords = ws'.map byteSwap)
    (hbe : t.be = firstDwordsMask ws'.length) : Answers c hdr (ws ++ ws') (p ++ [t]) := by
  have hlen : p.length = 1 + m := by
    rw [h.length, hfull]
    omega
  cases p with
  | nil =>
    rw [List.length_nil] at hlen
    omega
  | cons t₀ ts =>
    cases ws with
    | nil =>
      rw [List.length_nil] at hfull
      omega
    | cons w ws =>
      have hhead : t₀.IsHeader :=
        isHeader_of_data hp.1.1 (h.enables 0 t₀ rfl) (Option.some.inj h.header)
      have hpayload := h.payload
      rw [payload_completion hhead] at hpayload
      refine ⟨h.header, ?_, fun j u hu => ?_, ?_⟩
      · show Xbsv.payload (t₀ :: (ts ++ [t])) = _
        have hts : packetDwords (ts ++ [t]) = packetDwords ts ++ t.dwords := by simp [packetDwords]
        rw [payload_completion hhead, hts, List.map_append, ← hpayload, hdwords]
        rfl
      · rw [List.length_append, hfull]
        rcases Nat.lt_or_ge j (t₀ :: ts).length with hj | hj
        · rw [List.getElem?_append_left hj] at hu
          have hold := h.enables j u hu
          rw [hfull] at hold
          split at hold
          · rw [if_pos (by assumption)]
            exact hold
          · have hmin : min 4 (1 + 4 * m + ws'.length - 1 - 4 * (j - 1)) = min 4 (1 + 4 * m - 1 - 4 * (j - 1)) := by
              omega
            rw [if_neg (by assumption), hmin]
            exact hold
        · rw [List.getElem?_append_right hj, hlen] at hu
          obtain ⟨hlt, hu⟩ := List.getElem?_eq_some_iff.mp hu
          rw [List.length_singleton] at hlt
          rw [List.getElem_singleton] at hu
          have hmin : min 4 (1 + 4 * m + ws'.length - 1 - 4 * (j - 1)) = ws'.length := by omega
          rw [if_neg (by omega), hmin, ← hu]
          exact hbe
      · rw [List.length_append, hlen, List.length_append, hfull, List.length_singleton]
        omega

/-! ## What the rules send -/

namespace MemMasterEngine

variable {s s' : MemMasterEngine} {stale : ℕ → BitVec 32}

/-- The mask of a beat is that of the words it carries. -/
lemma tlpBe_eq {len : BitVec 10} (hpos : 0 < len.toNat) (hle : len.toNat ≤ 4) :
    tlpBe len = firstDwordsMask len.toNat := by
  have hlen : len = 1 ∨ len = 2 ∨ len = 3 ∨ len = 4 := by
    have h : len.toNat = 1 ∨ len.toNat = 2 ∨ len.toNat = 3 ∨ len.toNat = 4 := by omega
    rcases h with h | h | h | h
    · exact .inl (BitVec.eq_of_toNat_eq h)
    · exact .inr (.inl (BitVec.eq_of_toNat_eq h))
    · exact .inr (.inr (.inl (BitVec.eq_of_toNat_eq h)))
    · exact .inr (.inr (.inr (BitVec.eq_of_toNat_eq h)))
  rcases hlen with rfl | rfl | rfl | rfl <;> rfl

/-- The dwords of a beat that count are the first words of the queue. -/
lemma dwords_dataBeat {k : ℕ} {be : BitVec 16} {eof : Bool} (hk : k ≤ 4)
    (hlen : k ≤ s.completionMimo.items.length) (hbe : be = firstDwordsMask k) :
    (s.dataBeat c stale be eof).dwords = (s.completionMimo.items.take k).map byteSwap := by
  rw [TLPData.dwords_eq _ hk hbe]
  exact WriteSide.take_lanes_getD hk hlen stale

end MemMasterEngine

/-! ## The invariant -/

namespace MemMasterEngine

/-- The headers of the reads that have been handed to the slave. -/
def handedReads (tr : List Event) : List TLPMemoryIO3DWHeader :=
  tr.filterMap fun
    | .readReq hdr _ => some hdr
    | _ => none

/-- The words the slave has returned. -/
def handedWords (tr : List Event) : List (BitVec 32) :=
  tr.filterMap fun
    | .readData resp => some resp.data
    | _ => none

/-- The beats that have been taken. -/
def requests (tr : List Event) : List TLPData :=
  tr.filterMap fun
    | .request tlp => some tlp
    | _ => none

@[simp] lemma handedReads_append (tr es : List Event) : handedReads (tr ++ es) = handedReads tr ++ handedReads es :=
  List.filterMap_append

@[simp] lemma handedWords_append (tr es : List Event) :
    handedWords (tr ++ es) = handedWords tr ++ handedWords es :=
  List.filterMap_append

@[simp] lemma requests_append (tr es : List Event) : requests (tr ++ es) = requests tr ++ requests es :=
  List.filterMap_append

end MemMasterEngine

/-- A read with its words and the packet that answers it. -/
structure Completed where
  hdr : TLPMemoryIO3DWHeader
  words : List (BitVec 32)
  packet : List TLPData

/-- The words are as many as the read asks for, and they are in the packet. -/
structure Completed.IsRight (c : MasterConfig) (d : Completed) : Prop where
  length : d.words.length = d.hdr.length.toNat
  packet : IsPacket d.packet
  answers : Answers c d.hdr d.words d.packet

/-- The packet that answers the read `hdr` has begun: `ws` are the words that have been sent. -/
structure UnderWay (c : MasterConfig) (s : MemMasterEngine) (hdr : TLPMemoryIO3DWHeader) (ws : List (BitVec 32))
    (cur : List TLPData) : Prop where
  first : s.readDataFifo.first = some hdr
  part : IsPartial cur
  answers : Answers c hdr ws cur
  full : ∃ m, ws.length = 1 + 4 * m
  count : ws.length + s.readBurstCount.toNat = hdr.length.toNat
  pos : 0 < s.readBurstCount.toNat
  greater : s.readBurstCountGreaterThan4 = decide (4 < s.readBurstCount.toNat)

/-- The reads `done` have been answered; the words `ws` and the beats `cur` of the next one have been sent. -/
structure Completing (c : MasterConfig) (tr : List Event) (s : MemMasterEngine) (done : List Completed)
    (ws : List (BitVec 32)) (cur : List TLPData) : Prop where
  headers : handedReads tr = done.map Completed.hdr ++ s.readDataFifo.items
  words : handedWords tr = (done.map Completed.words).flatten ++ ws ++ s.completionMimo.items
  beats : requests tr ++ s.tlpOutFifo.items = (done.map Completed.packet).flatten ++ cur
  right : ∀ d ∈ done, d.IsRight c
  idle : s.readInProgress = false → ws = [] ∧ cur = []
  busy : s.readInProgress = true → ∃ hdr, UnderWay c s hdr ws cur

namespace Completing

variable {tr : List Event} {s s' : MemMasterEngine} {done : List Completed} {cur : List TLPData}

lemma reset : Completing c [] MemMasterEngine.reset [] [] [] where
  headers := rfl
  words := rfl
  beats := rfl
  right _ h := by cases h
  idle _ := ⟨rfl, rfl⟩
  busy h := by cases h

/-- A step that touches none of what matters here. -/
lemma frame (h : Completing c tr s done ws cur) {es : List Event} (hreqs : handedReads es = [])
    (hwords : handedWords es = []) (hbeats : requests es = []) (hdata : s'.readDataFifo = s.readDataFifo)
    (hmimo : s'.completionMimo = s.completionMimo) (hout : s'.tlpOutFifo = s.tlpOutFifo)
    (hcount : s'.readBurstCount = s.readBurstCount)
    (hgreater : s'.readBurstCountGreaterThan4 = s.readBurstCountGreaterThan4)
    (hprogress : s'.readInProgress = s.readInProgress) : Completing c (tr ++ es) s' done ws cur := by
  refine ⟨?_, ?_, ?_, h.right, ?_, ?_⟩
  · rw [handedReads_append, hreqs, List.append_nil, hdata]
    exact h.headers
  · rw [handedWords_append, hwords, List.append_nil, hmimo]
    exact h.words
  · rw [requests_append, hbeats, List.append_nil, hout]
    exact h.beats
  · rw [hprogress]
    exact h.idle
  · intro hbusy
    rw [hprogress] at hbusy
    obtain ⟨hdr, hu⟩ := h.busy hbusy
    refine ⟨hdr, ⟨?_, hu.part, hu.answers, hu.full, ?_, ?_, ?_⟩⟩
    · rw [hdata]
      exact hu.first
    · rw [hcount]
      exact hu.count
    · rw [hcount]
      exact hu.pos
    · rw [hcount, hgreater]
      exact hu.greater

/-- The header of a completion is sent. -/
lemma completionHeader (h : Completing c tr s done ws cur) (hok : ∀ hdr ∈ handedReads tr, 1 ≤ hdr.length.toNat)
    (hs : s.completionHeader c = some (s', t)) : ∃ done' ws' cur', Completing c tr s' done' ws' cur' := by
  obtain ⟨hdr, d, q, m, o, hidle, hfirst, hq, hm, rfl, ho, rfl⟩ := completionHeader_eq_some hs
  obtain ⟨rfl, rfl⟩ := h.idle hidle
  obtain ⟨hdrs, hitems⟩ := Fifo.first_eq_some.mp hfirst
  have hlen := hok hdr (by rw [h.headers, hitems]; simp)
  obtain ⟨-, ho⟩ := Fifo.enq_eq_some.mp ho
  have hsub : (hdr.length - 1).toNat = hdr.length.toNat - 1 := BitVec.toNat_sub_of_le hlen
  have hanswers : Answers c hdr [d] [s.headerBeat c hdr d] := answers_single rfl rfl rfl
  have hwords := h.words
  have hbeats := h.beats
  rw [List.append_nil] at hwords hbeats
  by_cases hone : hdr.length - 1 = 0
  · -- the only word of the read
    have hlen1 : hdr.length.toNat = 1 := by
      have := congrArg BitVec.toNat hone
      rw [hsub] at this
      have hzero : (0 : BitVec 10).toNat = 0 := rfl
      omega
    have heq : hdr.length = 1 := BitVec.eq_of_toNat_eq hlen1
    rw [decide_eq_true hone, Fifo.dropIf_eq_some] at hq
    obtain ⟨hdr', hq⟩ := hq
    obtain ⟨rfl, rfl⟩ := List.cons.inj (hitems.symm.trans hq)
    refine ⟨done ++ [⟨hdr, [d], [s.headerBeat c hdr d]⟩], [], [], ⟨?_, ?_, ?_, ?_, fun _ => ⟨rfl, rfl⟩, ?_⟩⟩
    · rw [h.headers, hitems]
      simp
    · rw [hwords, hm]
      simp
    · rw [ho, ← List.append_assoc, hbeats]
      simp
    · intro x hx
      rcases List.mem_append.mp hx with hx | hx
      · exact h.right x hx
      · rw [List.mem_singleton.mp hx]
        refine ⟨hlen1.symm, ⟨⟨rfl, fun _ h => by cases h⟩, [], _, rfl, ?_, fun _ h => by cases h⟩, hanswers⟩
        exact decide_eq_true heq
    · intro hbusy
      exact absurd hone (of_decide_eq_true hbusy)
  · have hne : hdr.length.toNat - 1 ≠ 0 := fun he => hone (BitVec.eq_of_toNat_eq (hsub.trans he))
    have hone' : hdr.length ≠ 1 := fun he => hone (by rw [he]; rfl)
    rw [decide_eq_false hone, Fifo.dropIf_eq_some] at hq
    simp only [Bool.false_eq_true, if_false] at hq
    subst hq
    refine ⟨done, [d], [s.headerBeat c hdr d], ⟨h.headers, ?_, ?_, h.right, ?_, fun _ => ⟨hdr, ⟨hfirst, ?_,
      hanswers, ⟨0, rfl⟩, ?_, ?_, ?_⟩⟩⟩⟩
    · rw [hwords, hm]
      simp
    · rw [ho, ← List.append_assoc, hbeats]
    · intro hidle'
      exact absurd hone (of_decide_eq_false hidle')
    · refine ⟨⟨rfl, fun _ h => by cases h⟩, fun u hu => ?_⟩
      rw [List.mem_singleton.mp hu]
      exact decide_eq_false hone'
    · show 1 + (hdr.length - 1).toNat = _
      rw [hsub]
      omega
    · show 0 < (hdr.length - 1).toNat
      rw [hsub]
      omega
    · rfl

/-- Nothing is sent: the registers are as they were. -/
lemma settle (h : Completing c tr s done ws cur) (hbusy : s.readInProgress = true)
    (hs : s.settle s.readBurstCount = some s') : Completing c tr s' done ws cur := by
  obtain ⟨hdr, hu⟩ := h.busy hbusy
  have hne : ¬ s.readBurstCount = 0 := by
    intro he
    have hpos := hu.pos
    rw [he] at hpos
    exact absurd hpos (by decide)
  obtain ⟨q, hq, hs⟩ := Option.bind_eq_some_iff.mp hs
  cases hs
  rw [decide_eq_false hne, Fifo.dropIf_eq_some] at hq
  simp only [Bool.false_eq_true, if_false] at hq
  subst hq
  have hframe : Completing c (tr ++ []) { s with
      readBurstCountGreaterThan4 := 4 < s.readBurstCount
      readInProgress := if s.readBurstCount = 0 then false else s.readInProgress } done ws cur :=
    h.frame rfl rfl rfl rfl rfl rfl rfl hu.greater.symm (if_neg hne)
  rwa [List.append_nil] at hframe

/-- Four words are sent, and more are left. -/
lemma sendFour (h : Completing c tr s done ws cur) (hu : UnderWay c s hdr ws cur)
    (hbusy : s.readInProgress = true) (hgreater : 4 < s.readBurstCount.toNat) {stale : ℕ → BitVec 32}
    {o : Option TLPData} (hs : s.sendWords c stale 4 (tlpBe 4) false (s.readBurstCount - 4) = some (s', o)) :
    ∃ done' ws' cur', Completing c tr s' done' ws' cur' := by
  rcases sendWords_cases hs with ⟨q, m, o, hlen, hm, ho, hq, rfl⟩ | ⟨-, hs⟩
  · have hsub : (s.readBurstCount - 4).toNat = s.readBurstCount.toNat - 4 :=
      BitVec.toNat_sub_of_le (Nat.le_of_lt hgreater)
    have hne : ¬ s.readBurstCount - 4 = 0 := by
      intro he
      have hzero := congrArg BitVec.toNat he
      rw [hsub] at hzero
      have : (0 : BitVec 10).toNat = 0 := rfl
      omega
    rw [decide_eq_false hne, Fifo.dropIf_eq_some] at hq
    simp only [Bool.false_eq_true, if_false] at hq
    subst hq
    obtain ⟨-, ho⟩ := Fifo.enq_eq_some.mp ho
    obtain ⟨k, hk⟩ := hu.full
    have htake : (s.completionMimo.items.take 4).length = 4 := List.length_take_of_le hlen
    have hanswers : Answers c hdr (ws ++ s.completionMimo.items.take 4)
        (cur ++ [s.dataBeat c stale (tlpBe 4) false]) := by
      refine hu.answers.concat hu.part hk (by omega) (by omega) ?_ ?_
      · exact dwords_dataBeat (Nat.le_refl 4) hlen rfl
      · rw [htake]
        rfl
    have hcur : cur ≠ [] := by
      intro he
      have := hu.answers.length
      rw [he, List.length_nil] at this
      omega
    refine ⟨done, _, _, ⟨h.headers, ?_, ?_, h.right, ?_, fun _ => ⟨hdr, ⟨hu.first, ?_, hanswers, ⟨k + 1, ?_⟩, ?_,
      ?_, rfl⟩⟩⟩⟩
    · rw [h.words, hm]
      simp only [List.append_assoc, List.take_append_drop]
    · rw [ho, ← List.append_assoc, h.beats, List.append_assoc]
    · intro hidle
      rw [if_neg hne, hbusy] at hidle
      cases hidle
    · exact hu.part.concat hcur rfl rfl
    · rw [List.length_append, htake, hk]
      omega
    · have hcount := hu.count
      show (ws ++ _).length + (s.readBurstCount - 4).toNat = _
      rw [List.length_append, htake, hsub]
      omega
    · show 0 < (s.readBurstCount - 4).toNat
      rw [hsub]
      omega
  · exact ⟨done, ws, cur, h.settle hbusy hs⟩

/-- The last words are sent. -/
lemma sendLast (h : Completing c tr s done ws cur) (hu : UnderWay c s hdr ws cur)
    (hbusy : s.readInProgress = true) (hle : s.readBurstCount.toNat ≤ 4) {stale : ℕ → BitVec 32}
    {o : Option TLPData}
    (hs : s.sendWords c stale s.readBurstCount.toNat (tlpBe s.readBurstCount) true 0 = some (s', o)) :
    ∃ done' ws' cur', Completing c tr s' done' ws' cur' := by
  rcases sendWords_cases hs with ⟨q, m, o, hlen, hm, ho, hq, rfl⟩ | ⟨-, hs⟩
  · obtain ⟨hdrs, hitems⟩ := Fifo.first_eq_some.mp hu.first
    rw [decide_eq_true rfl, Fifo.dropIf_eq_some] at hq
    obtain ⟨hdr', hq⟩ := hq
    obtain ⟨rfl, rfl⟩ := List.cons.inj (hitems.symm.trans hq)
    obtain ⟨-, ho⟩ := Fifo.enq_eq_some.mp ho
    obtain ⟨k, hk⟩ := hu.full
    have hpos := hu.pos
    have hcount := hu.count
    have htake : (s.completionMimo.items.take s.readBurstCount.toNat).length = s.readBurstCount.toNat :=
      List.length_take_of_le hlen
    have hbe : tlpBe s.readBurstCount = firstDwordsMask s.readBurstCount.toNat := tlpBe_eq hpos hle
    have hanswers : Answers c hdr (ws ++ s.completionMimo.items.take s.readBurstCount.toNat)
        (cur ++ [s.dataBeat c stale (tlpBe s.readBurstCount) true]) := by
      refine hu.answers.concat hu.part hk (by omega) (by omega) ?_ ?_
      · exact dwords_dataBeat hle hlen hbe
      · rw [htake]
        exact hbe
    have hcur : cur ≠ [] := by
      intro he
      have := hu.answers.length
      rw [he, List.length_nil] at this
      omega
    refine ⟨done ++ [⟨hdr, ws ++ s.completionMimo.items.take s.readBurstCount.toNat,
      cur ++ [s.dataBeat c stale (tlpBe s.readBurstCount) true]⟩], [], [],
      ⟨?_, ?_, ?_, fun d hd => ?_, fun _ => ⟨rfl, rfl⟩, fun hbusy => ?_⟩⟩
    · rw [h.headers, hitems]
      simp
    · rw [h.words, hm]
      simp only [List.map_append, List.map_cons, List.map_nil, List.flatten_append, List.flatten_singleton,
        List.append_nil, List.append_assoc, List.take_append_drop]
    · rw [ho, ← List.append_assoc, h.beats]
      simp
    · rcases List.mem_append.mp hd with hd | hd
      · exact h.right d hd
      · rw [List.mem_singleton.mp hd]
        refine ⟨?_, hu.part.isPacket_concat hcur rfl rfl, hanswers⟩
        rw [List.length_append, htake]
        exact hcount
    · cases hbusy
  · exact ⟨done, ws, cur, h.settle hbusy hs⟩

/-- The rule sends four words, the last words, or nothing. -/
lemma continuation (h : Completing c tr s done ws cur) {stale : ℕ → BitVec 32} {o : Option TLPData}
    (hs : s.continuation c stale = some (s', o)) : ∃ done' ws' cur', Completing c tr s' done' ws' cur' := by
  unfold MemMasterEngine.continuation at hs
  cases hbusy : s.readInProgress with
  | false => simp [hbusy] at hs
  | true =>
    obtain ⟨hdr, hu⟩ := h.busy hbusy
    simp only [hbusy, Bool.not_true, Bool.false_eq_true, if_false] at hs
    by_cases hgreater : 4 < s.readBurstCount.toNat
    · have hreg : s.readBurstCountGreaterThan4 = true := hu.greater.trans (decide_eq_true hgreater)
      rw [if_pos hreg] at hs
      exact h.sendFour hu hbusy hgreater hs
    · have hreg : ¬ s.readBurstCountGreaterThan4 = true := by
        rw [hu.greater]
        simpa using hgreater
      have hcount : (s.readBurstCount.setWidth 3).toNat = s.readBurstCount.toNat := by
        rw [BitVec.toNat_setWidth]
        exact Nat.mod_eq_of_lt (by omega)
      rw [if_neg hreg, hcount] at hs
      exact h.sendLast hu hbusy (by omega) hs

/-- A read is handed to the slave. -/
lemma readReq (h : Completing c tr s done ws cur) (hs : s.readReq = some (hdr, s')) :
    Completing c (tr ++ [MemMasterEngine.Event.readReq hdr hdr.memRequest]) s' done ws cur := by
  obtain ⟨⟨hdr', q⟩, -, hs⟩ := Option.bind_eq_some_iff.mp hs
  obtain ⟨q', hq', hs⟩ := Option.bind_eq_some_iff.mp hs
  cases hs
  obtain ⟨-, hitems⟩ := Fifo.enq_eq_some.mp hq'
  refine ⟨?_, ?_, ?_, h.right, h.idle, fun hbusy => ?_⟩
  · rw [handedReads_append, h.headers, hitems, List.append_assoc]
    rfl
  · rw [handedWords_append]
    simpa [handedWords] using h.words
  · rw [requests_append]
    simpa [requests] using h.beats
  · obtain ⟨hdr₀, hu⟩ := h.busy hbusy
    obtain ⟨hdrs, hfirst⟩ := Fifo.first_eq_some.mp hu.first
    refine ⟨hdr₀, { hu with first := Fifo.first_eq_some.mpr ⟨hdrs ++ [hdr], ?_⟩ }⟩
    rw [hitems, hfirst]
    rfl

/-- The slave returns a word. -/
lemma readData (h : Completing c tr s done ws cur) {resp : ObjectData 32} (hs : s.readData resp = some s') :
    Completing c (tr ++ [MemMasterEngine.Event.readData resp]) s' done ws cur := by
  unfold MemMasterEngine.readData at hs
  split at hs
  · obtain ⟨m, hm, hs⟩ := Option.bind_eq_some_iff.mp hs
    cases hs
    obtain ⟨-, hitems⟩ := Fifo.enqN_eq_some.mp hm
    refine ⟨?_, ?_, ?_, h.right, h.idle, fun hbusy => ?_⟩
    · rw [handedReads_append]
      simpa [handedReads] using h.headers
    · rw [handedWords_append, h.words, hitems]
      simp [handedWords]
    · rw [requests_append]
      simpa [requests] using h.beats
    · obtain ⟨hdr₀, hu⟩ := h.busy hbusy
      exact ⟨hdr₀, { hu with }⟩
  · cases hs

/-- A beat is taken. -/
lemma request (h : Completing c tr s done ws cur) (hs : s.request = some (t, s')) :
    Completing c (tr ++ [MemMasterEngine.Event.request t]) s' done ws cur := by
  obtain ⟨⟨t', o⟩, ho, hs⟩ := Option.bind_eq_some_iff.mp hs
  cases hs
  have hitems := Fifo.deq_eq_some.mp ho
  refine ⟨?_, ?_, ?_, h.right, h.idle, fun hbusy => ?_⟩
  · rw [handedReads_append]
    simpa [handedReads] using h.headers
  · rw [handedWords_append]
    simpa [handedWords] using h.words
  · rw [← h.beats, hitems]
    simp [requests]
  · obtain ⟨hdr₀, hu⟩ := h.busy hbusy
    exact ⟨hdr₀, { hu with }⟩

/-- Every step. -/
lemma step (h : Completing c tr s done ws cur) {a : Action} {es : List Event}
    (hok : ∀ hdr ∈ handedReads tr, 1 ≤ hdr.length.toNat) (hs : (memMasterEngine c).step s a = some (s', es)) :
    ∃ done' ws' cur', Completing c (tr ++ es) s' done' ws' cur' := by
  cases a with
  | response tlp =>
    cases hs
    refine ⟨done, ws, cur, ?_⟩
    simp only [MemMasterEngine.response]
    split <;> exact h.frame rfl rfl rfl rfl rfl rfl rfl rfl rfl
  | request =>
    obtain ⟨⟨tlp, s₁⟩, hs₁, hs⟩ := Option.bind_eq_some_iff.mp hs
    cases hs
    exact ⟨done, ws, cur, h.request hs₁⟩
  | readReq =>
    obtain ⟨⟨hdr, s₁⟩, hs₁, hs⟩ := Option.bind_eq_some_iff.mp hs
    cases hs
    exact ⟨done, ws, cur, h.readReq hs₁⟩
  | readData resp =>
    obtain ⟨s₁, hs₁, hs⟩ := Option.bind_eq_some_iff.mp hs
    cases hs
    exact ⟨done, ws, cur, h.readData hs₁⟩
  | writeReq =>
    obtain ⟨⟨hdr, s₁⟩, hs₁, hs⟩ := Option.bind_eq_some_iff.mp hs
    cases hs
    obtain ⟨⟨hdr', q⟩, -, hs₁⟩ := Option.bind_eq_some_iff.mp hs₁
    obtain ⟨q', -, hs₁⟩ := Option.bind_eq_some_iff.mp hs₁
    cases hs₁
    exact ⟨done, ws, cur, h.frame rfl rfl rfl rfl rfl rfl rfl rfl rfl⟩
  | writeData =>
    obtain ⟨⟨data, s₁⟩, hs₁, hs⟩ := Option.bind_eq_some_iff.mp hs
    cases hs
    obtain ⟨⟨hdr', q⟩, -, hs₁⟩ := Option.bind_eq_some_iff.mp hs₁
    cases hs₁
    exact ⟨done, ws, cur, h.frame rfl rfl rfl rfl rfl rfl rfl rfl rfl⟩
  | writeDone tag =>
    cases hs
    exact ⟨done, ws, cur, h.frame rfl rfl rfl rfl rfl rfl rfl rfl rfl⟩
  | completionHeader =>
    obtain ⟨⟨s₁, tlp⟩, hs₁, hs⟩ := Option.bind_eq_some_iff.mp hs
    cases hs
    rw [List.append_nil]
    exact h.completionHeader hok hs₁
  | continuation stale =>
    obtain ⟨⟨s₁, o⟩, hs₁, hs⟩ := Option.bind_eq_some_iff.mp hs
    cases hs
    rw [List.append_nil]
    exact h.continuation hs₁

end Completing

/-- The invariant holds in every run in which the reads ask for a word at least. -/
lemma exists_completing {tr : List Event} {s : MemMasterEngine} (h : (memMasterEngine c).Reaches .reset tr s)
    (hok : ∀ hdr ∈ handedReads tr, 1 ≤ hdr.length.toNat) : ∃ done ws cur, Completing c tr s done ws cur := by
  refine h.invariant (I := fun tr (s : MemMasterEngine) => (∀ hdr ∈ handedReads tr, 1 ≤ hdr.length.toNat) →
    ∃ done ws cur, Completing c tr s done ws cur) (fun _ => ⟨[], [], [], .reset⟩) ?_ hok
  intro tr s a s' es ih hs hok
  have hok' : ∀ hdr ∈ handedReads tr, 1 ≤ hdr.length.toNat := fun hdr hmem => hok hdr (by simp [hmem])
  obtain ⟨done, ws, cur, hc⟩ := ih hok'
  exact hc.step hok' hs

/-! ## The words of the reads -/

section Grouping

variable {α : Type} {xs ys : List (List α)} {r : List α}

/-- Groups of the same sizes, of the same list, are the same. -/
lemma exists_eq_append_of_flatten (hlen : xs.map List.length <+: ys.map List.length)
    (h : xs.flatten ++ r <+: ys.flatten) : ∃ zs, ys = xs ++ zs ∧ r <+: zs.flatten := by
  induction xs generalizing ys with
  | nil => exact ⟨ys, rfl, by simpa using h⟩
  | cons x xs ih =>
    cases ys with
    | nil => simp at hlen
    | cons y ys =>
      obtain ⟨hxy, hrest⟩ := List.cons_prefix_cons.mp hlen
      rw [List.flatten_cons, List.flatten_cons, List.append_assoc] at h
      have hx : x <+: y :=
        List.prefix_of_prefix_length_le ((List.prefix_append _ _).trans h) (List.prefix_append _ _) (by omega)
      obtain rfl := hx.eq_of_length hxy
      obtain ⟨zs, rfl, hr⟩ := ih hrest ((List.prefix_append_right_inj _).mp h)
      exact ⟨zs, rfl, hr⟩

end Grouping

/-- The packets answer the first of the reads, each with its words. -/
def AnswerInOrder (c : MasterConfig) (hdrs : List TLPMemoryIO3DWHeader) (answers : List (List (BitVec 32)))
    (ps : List (List TLPData)) : Prop :=
  ∀ (k : ℕ) p, ps[k]? = some p →
    ∃ hdr ws, hdrs[k]? = some hdr ∧ answers[k]? = some ws ∧ IsPacket p ∧ Answers c hdr ws p

/-- The words are as many as the reads ask for. -/
def AnswersFit (hdrs : List TLPMemoryIO3DWHeader) (answers : List (List (BitVec 32))) : Prop :=
  answers.map List.length = hdrs.map fun hdr => hdr.length.toNat

namespace Completing

variable {tr : List Event} {s : MemMasterEngine} {done : List Completed} {cur : List TLPData}
  {answers : List (List (BitVec 32))}

/-- The packets of what has been sent. -/
lemma packets_eq (h : Completing c tr s done ws cur) (hcur : IsPartial cur) :
    packets (requests tr ++ s.tlpOutFifo.items) = (done.map Completed.packet, cur) := by
  have hdone : ∀ p ∈ done.map Completed.packet, IsPacket p := by
    intro p hp
    obtain ⟨d, hd, rfl⟩ := List.mem_map.mp hp
    exact (h.right d hd).packet
  rw [h.beats, packets_append hcur.2, packets_flatten hdone]
  rfl

/-- What has begun is the beginning of a packet. -/
lemma isPartial (h : Completing c tr s done ws cur) : IsPartial cur := by
  cases hbusy : s.readInProgress with
  | false =>
    rw [(h.idle hbusy).2]
    exact ⟨trivial, fun _ h => by cases h⟩
  | true =>
    obtain ⟨hdr, hu⟩ := h.busy hbusy
    exact hu.part

/-- The words of the reads that have been answered are the first answers. -/
lemma answers_eq (h : Completing c tr s done ws cur) (hfit : AnswersFit (handedReads tr) answers)
    (hdata : handedWords tr <+: answers.flatten) :
    ∃ zs, answers = done.map Completed.words ++ zs ∧ ws ++ s.completionMimo.items <+: zs.flatten ∧
      zs.map List.length = s.readDataFifo.items.map fun hdr => hdr.length.toNat := by
  have hright : (done.map Completed.words).map List.length =
      (done.map Completed.hdr).map fun hdr => hdr.length.toNat := by
    rw [List.map_map, List.map_map]
    exact List.map_congr_left fun d hd => (h.right d hd).length
  unfold AnswersFit at hfit
  rw [h.headers, List.map_append, ← hright] at hfit
  rw [h.words, List.append_assoc] at hdata
  obtain ⟨zs, rfl, hr⟩ := exists_eq_append_of_flatten ⟨_, hfit.symm⟩ hdata
  refine ⟨zs, rfl, hr, ?_⟩
  rw [List.map_append] at hfit
  exact List.append_cancel_left hfit

/-- The packets that have been sent answer the first of the reads. -/
lemma inOrder (h : Completing c tr s done ws cur) (hfit : AnswersFit (handedReads tr) answers)
    (hdata : handedWords tr <+: answers.flatten) :
    AnswerInOrder c (handedReads tr) answers (done.map Completed.packet) := by
  obtain ⟨zs, rfl, -, -⟩ := h.answers_eq hfit hdata
  intro k p hp
  rw [List.getElem?_map] at hp
  obtain ⟨d, hd, rfl⟩ := Option.map_eq_some_iff.mp hp
  obtain ⟨hk, -⟩ := List.getElem?_eq_some_iff.mp hd
  have hright := h.right d (List.mem_of_getElem? hd)
  refine ⟨d.hdr, d.words, ?_, ?_, hright.packet, hright.answers⟩
  · rw [h.headers, List.getElem?_append_left (by simpa using hk), List.getElem?_map, hd]
    rfl
  · rw [List.getElem?_append_left (by simpa using hk), List.getElem?_map, hd]
    rfl

/-- The packet that has begun answers the next read. -/
lemma underWay (h : Completing c tr s done ws cur) (hfit : AnswersFit (handedReads tr) answers)
    (hdata : handedWords tr <+: answers.flatten) (hu : UnderWay c s hdr ws cur) :
    ∃ a, (handedReads tr)[done.length]? = some hdr ∧ answers[done.length]? = some a ∧ ws <+: a ∧
      a.length = hdr.length.toNat := by
  obtain ⟨hdrs, hfirst⟩ := Fifo.first_eq_some.mp hu.first
  obtain ⟨zs, rfl, hpre, hlens⟩ := h.answers_eq hfit hdata
  rw [hfirst] at hlens
  cases zs with
  | nil => simp at hlens
  | cons a zs =>
    have ha : a.length = hdr.length.toNat := (List.cons.inj hlens).1
    refine ⟨a, ?_, ?_, ?_, ha⟩
    · rw [h.headers, List.getElem?_append_right (by simp), List.length_map, Nat.sub_self, hfirst]
      rfl
    · rw [List.getElem?_append_right (by simp), List.length_map, Nat.sub_self]
      rfl
    · have hcount := hu.count
      exact List.prefix_of_prefix_length_le ((List.prefix_append _ _).trans hpre) (List.prefix_append _ _)
        (by omega)

end Completing

/-! ## Progress -/

namespace MemMasterEngine

/-- The steps that are still needed if the slave returns `n` words. -/
def load (n : ℕ) (tr : List Event) (s : MemMasterEngine) : ℕ :=
  3 * (n - (handedWords tr).length) + 2 * s.completionMimo.items.length + s.tlpOutFifo.items.length

variable {s s' : MemMasterEngine} (n : ℕ) (tr : List Event)

/-- A beat can be taken. -/
lemma exists_request (h : s.tlpOutFifo.items ≠ []) :
    ∃ s' t, (memMasterEngine c).step s .request = some (s', [.request t]) ∧
      load n (tr ++ [Event.request t]) s' < load n tr s := by
  obtain ⟨t, ts, hitems⟩ := List.exists_cons_of_ne_nil h
  obtain ⟨q, hq, hq'⟩ := Fifo.exists_deq hitems
  refine ⟨{ s with tlpOutFifo := q }, t, ?_, ?_⟩
  · simp only [memMasterEngine, MemMasterEngine.request, hq, bind, pure, Option.bind_some]
  · have hwords : handedWords (tr ++ [Event.request t]) = handedWords tr := by simp [handedWords]
    simp only [load, hwords, hq', hitems, List.length_cons]
    omega

/-- The slave can return a word. -/
lemma exists_readData (h : s.completionMimo.items.length < 4) (hn : (handedWords tr).length < n) (w : BitVec 32) :
    ∃ s', (memMasterEngine c).step s (.readData ⟨w, 0, false⟩) = some (s', [.readData ⟨w, 0, false⟩]) ∧
      load n (tr ++ [Event.readData ⟨w, 0, false⟩]) s' < load n tr s := by
  have hready : s.completionMimo.enqReadyN 1 = true := decide_eq_true h
  have henq : ∃ m, s.completionMimo.enqN [w] = some m := by
    unfold Fifo.enqN
    rw [dif_pos (by exact h)]
    exact ⟨_, rfl⟩
  obtain ⟨m, hm⟩ := henq
  refine ⟨{ s with completionMimo := m }, ?_, ?_⟩
  · simp only [memMasterEngine, MemMasterEngine.readData, hready, hm, if_true, bind, pure, Option.bind_some]
  · obtain ⟨-, hitems⟩ := Fifo.enqN_eq_some.mp hm
    have hwords : handedWords (tr ++ [Event.readData ⟨w, 0, false⟩]) = handedWords tr ++ [w] := by simp [handedWords]
    simp only [load, hwords, hitems, List.length_append, List.length_singleton]
    omega

/-- The header can be sent. -/
lemma exists_header {hdrs : List TLPMemoryIO3DWHeader} (hidle : s.readInProgress = false)
    (hq : s.readDataFifo.items = hdr :: hdrs) (hm : s.completionMimo.items ≠ []) (hout : s.tlpOutFifo.items = []) :
    ∃ s', (memMasterEngine c).step s .completionHeader = some (s', []) ∧ load n tr s' < load n tr s := by
  obtain ⟨s', tlp, hs⟩ := exists_completionHeader (c := c) hidle hq hm hout
  refine ⟨s', by simp only [memMasterEngine, hs, bind, pure, Option.bind_some], ?_⟩
  obtain ⟨hdr', d, q, m, o, -, -, -, hmimo, -, ho, rfl⟩ := completionHeader_eq_some hs
  obtain ⟨-, ho⟩ := Fifo.enq_eq_some.mp ho
  simp only [load, hmimo, ho, List.length_cons, List.length_append, List.length_nil]
  omega

/-- The next words can be sent. -/
lemma exists_continuation {cur : List TLPData} (hbusy : s.readInProgress = true) (hu : UnderWay c s hdr ws cur)
    (hm : min 4 s.readBurstCount.toNat ≤ s.completionMimo.items.length) (hout : s.tlpOutFifo.items = []) :
    ∃ s', (memMasterEngine c).step s (.continuation fun _ => 0) = some (s', []) ∧ load n tr s' < load n tr s := by
  obtain ⟨hdrs, hq⟩ := Fifo.first_eq_some.mp hu.first
  have hpos := hu.pos
  -- the number of words, whichever branch is taken
  have hsend (count : ℕ) (be : BitVec 16) (eof : Bool) (rbc : BitVec 10) (hc : 0 < count)
      (hcount : count ≤ s.completionMimo.items.length) :
      ∃ s' o, s.sendWords c (fun _ => 0) count be eof rbc = some (s', o) ∧ load n tr s' < load n tr s := by
    obtain ⟨s', o, hs⟩ := exists_sendWords (c := c) hq hc hcount hout (fun _ => 0) be eof rbc
    refine ⟨s', o, hs, ?_⟩
    rcases sendWords_cases hs with ⟨q, m, o, -, hm', ho, -, rfl⟩ | ⟨hlt, -⟩
    · obtain ⟨-, ho⟩ := Fifo.enq_eq_some.mp ho
      simp only [load, hm', ho, List.length_drop, List.length_append, List.length_singleton]
      omega
    · omega
  by_cases hgreater : 4 < s.readBurstCount.toNat
  · have hreg : s.readBurstCountGreaterThan4 = true := hu.greater.trans (decide_eq_true hgreater)
    obtain ⟨s', o, hs, hlt⟩ := hsend 4 (tlpBe 4) false (s.readBurstCount - 4) (by omega) (by omega)
    refine ⟨s', ?_, hlt⟩
    simp only [memMasterEngine, MemMasterEngine.continuation, hbusy, hreg, Bool.not_true, Bool.false_eq_true,
      if_false, if_true, hs, bind, pure, Option.bind_some]
  · have hreg : s.readBurstCountGreaterThan4 = false := hu.greater.trans (decide_eq_false hgreater)
    have hcount : (s.readBurstCount.setWidth 3).toNat = s.readBurstCount.toNat := by
      rw [BitVec.toNat_setWidth]
      exact Nat.mod_eq_of_lt (by omega)
    obtain ⟨s', o, hs, hlt⟩ := hsend s.readBurstCount.toNat (tlpBe s.readBurstCount) true 0 hpos (by omega)
    refine ⟨s', ?_, hlt⟩
    simp only [memMasterEngine, MemMasterEngine.continuation, hbusy, hreg, hcount, Bool.not_true,
      Bool.false_eq_true, if_false, hs, bind, pure, Option.bind_some]

/-- All reads have been answered. -/
def IsDone (s : MemMasterEngine) : Prop :=
  s.readInProgress = false ∧ s.readDataFifo.items = [] ∧ s.tlpOutFifo.items = []

end MemMasterEngine

/-- If not all is done, a beat can be taken, a word can come, or a rule sends a beat. -/
lemma Completing.progress {tr : List Event} {s : MemMasterEngine} {done : List Completed} {cur : List TLPData}
    {answers : List (List (BitVec 32))} (h : Completing c tr s done ws cur)
    (hok : ∀ hdr ∈ handedReads tr, 1 ≤ hdr.length.toNat) (hfit : AnswersFit (handedReads tr) answers)
    (hdata : handedWords tr <+: answers.flatten) :
    (handedWords tr = answers.flatten ∧ s.IsDone) ∨
      ∃ a s' es, (memMasterEngine c).step s a = some (s', es) ∧ handedReads es = [] ∧
        handedWords (tr ++ es) <+: answers.flatten ∧
        load answers.flatten.length (tr ++ es) s' < load answers.flatten.length tr s := by
  obtain ⟨zs, hzs, hpre, hlens⟩ := h.answers_eq hfit hdata
  have hsplit : answers.flatten.length = (done.map Completed.words).flatten.length + zs.flatten.length := by
    rw [hzs, List.flatten_append, List.length_append]
  have hwords : (handedWords tr).length =
      (done.map Completed.words).flatten.length + (ws.length + s.completionMimo.items.length) := by
    rw [h.words, List.append_assoc, List.length_append, List.length_append]
  -- a word can come if some words of the next read are missing
  have hcome (hroom : s.completionMimo.items.length < 4)
      (hmiss : ws.length + s.completionMimo.items.length < zs.flatten.length) :
      ∃ a s' es, (memMasterEngine c).step s a = some (s', es) ∧ handedReads es = [] ∧
        handedWords (tr ++ es) <+: answers.flatten ∧
        load answers.flatten.length (tr ++ es) s' < load answers.flatten.length tr s := by
    have hlt : (handedWords tr).length < answers.flatten.length := by omega
    have hw := List.concat_get_prefix hdata hlt
    obtain ⟨s', hs, hless⟩ := exists_readData (c := c) answers.flatten.length tr hroom (by omega)
      (answers.flatten.get ⟨(handedWords tr).length, hlt⟩)
    refine ⟨_, s', _, hs, rfl, ?_, hless⟩
    rw [handedWords_append]
    exact hw
  by_cases hout : s.tlpOutFifo.items = []
  · cases hbusy : s.readInProgress with
    | true =>
      obtain ⟨hdr, hu⟩ := h.busy hbusy
      by_cases hm : min 4 s.readBurstCount.toNat ≤ s.completionMimo.items.length
      · obtain ⟨s', hs, hlt⟩ := exists_continuation answers.flatten.length tr hbusy hu hm hout
        exact .inr ⟨_, s', [], hs, rfl, by rwa [List.append_nil], by rwa [List.append_nil]⟩
      · obtain ⟨hdrs, hfirst⟩ := Fifo.first_eq_some.mp hu.first
        rw [hfirst] at hlens
        cases zs with
        | nil => simp at hlens
        | cons a zs =>
          have ha : a.length = hdr.length.toNat := (List.cons.inj hlens).1
          have hcount := hu.count
          refine .inr (hcome (by omega) ?_)
          rw [List.flatten_cons, List.length_append]
          omega
    | false =>
      obtain ⟨rfl, rfl⟩ := h.idle hbusy
      cases hq : s.readDataFifo.items with
      | nil =>
        rw [hq] at hlens
        have hzs' : zs = [] := List.map_eq_nil_iff.mp hlens
        refine .inl ⟨?_, hbusy, hq, hout⟩
        rw [hzs', List.flatten_nil, List.prefix_nil] at hpre
        rw [h.words, hzs, hzs', List.append_assoc, hpre, List.append_nil, List.append_nil]
      | cons hdr hdrs =>
        rw [hq] at hlens
        have hpos := hok hdr (by rw [h.headers, hq]; simp)
        by_cases hm : s.completionMimo.items = []
        · cases zs with
          | nil => simp at hlens
          | cons a zs =>
            have ha : a.length = hdr.length.toNat := (List.cons.inj hlens).1
            refine .inr (hcome (by rw [hm]; decide) ?_)
            rw [hm, List.flatten_cons, List.length_append, List.length_nil]
            omega
        · obtain ⟨s', hs, hlt⟩ := exists_header (c := c) answers.flatten.length tr hbusy hq hm hout
          exact .inr ⟨_, s', [], hs, rfl, by rwa [List.append_nil], by rwa [List.append_nil]⟩
  · obtain ⟨s', x, hs, hlt⟩ := exists_request (c := c) answers.flatten.length tr hout
    refine .inr ⟨_, s', _, hs, rfl, ?_, hlt⟩
    rw [handedWords_append]
    simpa [handedWords] using hdata

/-- All reads can be answered: the slave returns the words that are missing, and the beats are taken. -/
lemma Completing.exists_complete {tr : List Event} {s : MemMasterEngine} {done : List Completed}
    {cur : List TLPData} {answers : List (List (BitVec 32))} (h : Completing c tr s done ws cur)
    (hok : ∀ hdr ∈ handedReads tr, 1 ≤ hdr.length.toNat) (hfit : AnswersFit (handedReads tr) answers)
    (hdata : handedWords tr <+: answers.flatten) :
    ∃ tr' s', (memMasterEngine c).Reaches s tr' s' ∧ handedReads (tr ++ tr') = handedReads tr ∧
      handedWords (tr ++ tr') = answers.flatten ∧ s'.IsDone ∧
      ∃ done ws cur, Completing c (tr ++ tr') s' done ws cur := by
  have hdrain := RuleSystem.exists_drained (M := memMasterEngine c)
    (I := fun t s => (∃ done ws cur, Completing c t s done ws cur) ∧ handedWords t <+: answers.flatten)
    (E := fun t s => handedWords t = answers.flatten ∧ s.IsDone) handedReads (load answers.flatten.length)
    ⟨⟨done, ws, cur, h⟩, hdata⟩ ?_
  · obtain ⟨tr', s', hreach, ⟨hc, -⟩, hreqs, hwords, hdone⟩ := hdrain
    exact ⟨tr', s', hreach, hreqs, hwords, hdone, hc⟩
  · rintro t s ⟨⟨done, ws, cur, hc⟩, hdata⟩ hreqs hbusy
    have hok' : ∀ hdr ∈ handedReads t, 1 ≤ hdr.length.toNat := by rwa [hreqs]
    obtain ⟨a, s', es, hs, hes, hdata', hlt⟩ := (hc.progress hok' (by rwa [hreqs]) hdata).resolve_left hbusy
    refine ⟨a, s', es, hs, ⟨hc.step hok' hs, hdata'⟩, ?_, hlt⟩
    rw [handedReads_append, hes, List.append_nil]

/-- **Reads are answered in order.** Let the reads that have been handed to the slave ask for 1 to 255 words, and let
`answers` be the words the slave has for them, as many as each asks for, of which it has returned some. What has been sent
is one packet for each of the first reads, with its words, and as long as `readInProgress` holds a part of the packet
for the next one; `readBurstCount` is then the number of words that are missing, and
`readBurstCountGreaterThan4` tells if these are more than four. And all the reads can be answered.

**Proof sketch.** Every beat takes its words from the front of the queue, and a packet takes as many words as its
read asks for (`Completing`), so that the words fall into the same groups as on the side of the slave. -/
theorem reads_completed {tr : List Event} {s : MemMasterEngine} (h : (memMasterEngine c).Reaches .reset tr s)
    (hreqs : ∀ hdr ∈ handedReads tr, 1 ≤ hdr.length.toNat ∧ hdr.length.toNat ≤ 255)
    {answers : List (List (BitVec 32))}
    (hanswers : answers.map List.length = (handedReads tr).map fun hdr => hdr.memRequest.burstLen.toNat)
    (hdata : handedWords tr <+: answers.flatten) :
    (∃ ps cur, packets (requests tr ++ s.tlpOutFifo.items) = (ps, cur) ∧
      AnswerInOrder c (handedReads tr) answers ps ∧ (s.readInProgress = false → cur = []) ∧
      (s.readInProgress = true → ∃ hdr ws, (handedReads tr)[ps.length]? = some hdr ∧
        answers[ps.length]? = some ws ∧ IsPartial cur ∧ Answers c hdr (ws.take (payload cur).length) cur ∧
        (payload cur).length + s.readBurstCount.toNat = hdr.length.toNat ∧
        s.readBurstCountGreaterThan4 = decide (4 < s.readBurstCount.toNat))) ∧
    ∃ tr' s' ps, (memMasterEngine c).Reaches s tr' s' ∧ handedReads (tr ++ tr') = handedReads tr ∧
      handedWords (tr ++ tr') = answers.flatten ∧ packets (requests (tr ++ tr')) = (ps, []) ∧
      ps.length = (handedReads tr).length ∧ AnswerInOrder c (handedReads tr) answers ps := by
  have hok (hdr : TLPMemoryIO3DWHeader) (hmem : hdr ∈ handedReads tr) := (hreqs hdr hmem).1
  have hfit : AnswersFit (handedReads tr) answers := by
    refine hanswers.trans (List.map_congr_left fun hdr hmem => ?_)
    have hle := (hreqs hdr hmem).2
    show (hdr.length.setWidth 8).toNat = hdr.length.toNat
    rw [BitVec.toNat_setWidth]
    exact Nat.mod_eq_of_lt (by omega)
  obtain ⟨done, ws, cur, hc⟩ := exists_completing h hok
  constructor
  · refine ⟨_, cur, hc.packets_eq hc.isPartial, hc.inOrder hfit hdata, fun hidle => (hc.idle hidle).2,
      fun hbusy => ?_⟩
    obtain ⟨hdr, hu⟩ := hc.busy hbusy
    obtain ⟨a, hhdr, ha, hpre, -⟩ := hc.underWay hfit hdata hu
    have hlen : (payload cur).length = ws.length := by rw [hu.answers.payload, List.length_map]
    have htake : a.take ws.length = ws := List.prefix_iff_eq_take.mp hpre |>.symm
    have hsofar : Answers c hdr (a.take ws.length) cur := by
      rw [htake]
      exact hu.answers
    rw [List.length_map, hlen]
    exact ⟨hdr, a, hhdr, ha, hu.part, hsofar, hu.count, hu.greater⟩
  · obtain ⟨tr', s', hreach, hreqs', hwords, ⟨hidle, hnil, hout⟩, done', ws', cur', hc'⟩ :=
      hc.exists_complete hok hfit hdata
    have hpackets := hc'.packets_eq hc'.isPartial
    rw [hout, List.append_nil, (hc'.idle hidle).2] at hpackets
    have hall : handedWords (tr ++ tr') <+: answers.flatten := by rw [hwords]
    have hinOrder := hc'.inOrder (by rwa [hreqs']) hall
    rw [hreqs'] at hinOrder
    refine ⟨tr', s', _, hreach, hreqs', hwords, hpackets, ?_, hinOrder⟩
    have hheaders := hc'.headers
    rw [hreqs', hnil, List.append_nil] at hheaders
    rw [hheaders, List.length_map, List.length_map]

/-- An engine with default records that are zero. -/
def zeroMaster : MasterConfig where
  myId := 0x0100
  tlp := zeroDefaults.tlp
  completion := .unpack 0
  getLowerAddr addr _ := addr.setWidth 5 ++ (0 : BitVec 2)

/-- A read of six words, with the tag 3. -/
def sixWordRead : TLPData := ⟨true, true, 4, 0xfff0, 0x00000006000003ff0000010000000000⟩

/-- A read of one word, with the tag 4. -/
def oneWordRead : TLPData := ⟨true, true, 4, 0xfff0, 0x000000010000040f0000020000000000⟩

/-- The words of the two reads. -/
def sevenWords : List (List (BitVec 32)) := [[1, 2, 3, 4, 5, 6], [7]]

/-- A word is returned. -/
def MemMasterEngine.word (w : BitVec 32) : Action := .readData ⟨w, 0, false⟩

/-- The words are late at first, and at the end the queue holds words of both reads. -/
def twoRegisterReads :=
  (memMasterEngine zeroMaster).run .reset
    [.response sixWordRead, .readReq, word 1, .response oneWordRead, .completionHeader, .readReq,
      .continuation fun _ => 9, word 2, word 3, word 4, .continuation fun _ => 9, word 5, .continuation fun _ => 9,
      word 6, word 7, .continuation fun _ => 9, .request]

theorem reads_completed_twoRegisterReads :
    (twoRegisterReads.1.readInProgress = false ∧ twoRegisterReads.1.completionMimo.items = [7] ∧
      (requests twoRegisterReads.2 ++ twoRegisterReads.1.tlpOutFifo.items).map (fun t => (t.sof, t.eof, t.be)) =
        [(true, false, 0xffff), (false, false, 0xffff), (false, true, 0xf000)]) ∧
    (∃ ps cur, packets (requests twoRegisterReads.2 ++ twoRegisterReads.1.tlpOutFifo.items) = (ps, cur) ∧
      AnswerInOrder zeroMaster (handedReads twoRegisterReads.2) sevenWords ps ∧
      (twoRegisterReads.1.readInProgress = false → cur = []) ∧
      (twoRegisterReads.1.readInProgress = true → ∃ hdr ws, (handedReads twoRegisterReads.2)[ps.length]? = some hdr ∧
        sevenWords[ps.length]? = some ws ∧ IsPartial cur ∧
        Answers zeroMaster hdr (ws.take (payload cur).length) cur ∧
        (payload cur).length + twoRegisterReads.1.readBurstCount.toNat = hdr.length.toNat ∧
        twoRegisterReads.1.readBurstCountGreaterThan4 = decide (4 < twoRegisterReads.1.readBurstCount.toNat))) ∧
    ∃ tr' s' ps, (memMasterEngine zeroMaster).Reaches twoRegisterReads.1 tr' s' ∧
      handedReads (twoRegisterReads.2 ++ tr') = handedReads twoRegisterReads.2 ∧
      handedWords (twoRegisterReads.2 ++ tr') = sevenWords.flatten ∧
      packets (requests (twoRegisterReads.2 ++ tr')) = (ps, []) ∧ ps.length = (handedReads twoRegisterReads.2).length ∧
      AnswerInOrder zeroMaster (handedReads twoRegisterReads.2) sevenWords ps :=
  ⟨by decide +kernel, reads_completed (RuleSystem.reaches_run _ _) (by decide +kernel) (by decide +kernel)
    (by decide +kernel)⟩

end Xbsv
