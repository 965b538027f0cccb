import Xbsv.Pcie.MemSlaveEngine
import Xbsv.Rules.Drain

set_option relaxedAutoImplicit false
set_option autoImplicit false

/-!
# Completions

What the slave engine reads comes back in completions, and `readData` gives out as many dwords at a time as
the bus is wide. Dwords and tags go through two queues, which are filled by one rule and emptied by one method,
so that they stay in step. A beat for which there is no room stays where it is.

## Main definitions

* `Xbsv.IsCompletion`, `Xbsv.completionWords` — a completion, and its data with the tag.
* `Xbsv.Returns` — what `readData` makes of some dwords.
* `Xbsv.Reassembly` — the invariant: the dwords that have been returned, and those in the queues.

## Main results

* `Xbsv.returns_completions` — the data of the completions are returned in order, and nothing gets stuck.
-/

namespace Xbsv

open Rules Bits MemSlaveEngine

variable {c : SlaveConfig}

/-! ## The data of completions -/

namespace TLPData

/-- The tag in the header of a completion. -/
def completionTag (t : TLPData) : BitVec 8 := (TLPCompletionHeader.unpack t.data).tag

/-- The first beat of a completion: a header and one dword of data. -/
structure IsHeader (t : TLPData) : Prop where
  sof : t.sof = true
  be : t.be = 0xffff
  format : (TLPMemoryIO3DWHeader.unpack t.data).format = .memWrite3DWData
  pkttype : (TLPMemoryIO3DWHeader.unpack t.data).pkttype = pkttypeCompletion

/-- A beat of data: the dwords that count are the first ones, and there is one at least. -/
structure IsData (t : TLPData) : Prop where
  sof : t.sof = false
  be : ∃ k, 1 ≤ k ∧ k ≤ 4 ∧ t.be = (BitVec.allOnes 16) <<< (16 - 4 * k)

end TLPData

/-- A completion: a header, and beats of data. -/
def IsCompletion : List TLPData → Prop
  | [] => False
  | t :: ts => t.IsHeader ∧ ∀ t' ∈ ts, t'.IsData

/-- The data of a completion, each dword with the tag. -/
def completionWords (p : List TLPData) : List (BitVec 32 × BitVec 8) :=
  (payload p).map fun d => (d, (p.head?.map TLPData.completionTag).getD 0)

/-- The tag of the data that come after a beat. -/
def nextTag (tag : BitVec 8) (t : TLPData) : BitVec 8 := if t.sof then t.completionTag else tag

/-- The data of a beat, if `tag` is the one of the header before it. -/
def arrival (tag : BitVec 8) (t : TLPData) : List (BitVec 32 × BitVec 8) :=
  if t.sof then [(t.data.extractLsb' 0 32, t.completionTag)] else t.dwords.map fun d => (d, tag)

/-- The data of some beats, if `tag` is the one of the header before them. -/
def arrivals (tag : BitVec 8) : List TLPData → List (BitVec 32 × BitVec 8)
  | [] => []
  | t :: ts => arrival tag t ++ arrivals (nextTag tag t) ts

/-- One list of beats after another. -/
lemma arrivals_append (tag : BitVec 8) (l l' : List TLPData) :
    arrivals tag (l ++ l') = arrivals tag l ++ arrivals (l.foldl nextTag tag) l' := by
  induction l generalizing tag with
  | nil => rfl
  | cons t l ih =>
    show arrival tag t ++ arrivals (nextTag tag t) (l ++ l') = _
    rw [ih, ← List.append_assoc]
    rfl

/-- Beats of data belong to the header before them. -/
lemma arrivals_data {ts : List TLPData} (h : ∀ t ∈ ts, t.IsData) (tag : BitVec 8) :
    arrivals tag ts = (packetDwords ts).map fun d => (d, tag) := by
  induction ts with
  | nil => rfl
  | cons t ts ih =>
    have hsof := (h t (by simp)).sof
    have hrest := ih fun t' ht' => h t' (by simp [ht'])
    have htag : nextTag tag t = tag := by simp [nextTag, hsof]
    have hbeat : arrival tag t = t.dwords.map fun d => (d, tag) := by simp [arrival, hsof]
    show arrival tag t ++ arrivals (nextTag tag t) ts = _
    rw [htag, hbeat, hrest, ← List.map_append]
    rfl

/-- The data of a completion are the dword in its first beat and the dwords of the other beats. -/
lemma payload_completion {t : TLPData} (ht : t.IsHeader) (ts : List TLPData) :
    payload (t :: ts) = t.data.extractLsb' 0 32 :: packetDwords ts := by
  have hdw : t.dwords = lanes t.data := t.dwords_eq (Nat.le_refl 4) ht.be
  have hall : packetDwords (t :: ts) = t.data.extractLsb' 96 32 :: t.data.extractLsb' 64 32 ::
      t.data.extractLsb' 32 32 :: t.data.extractLsb' 0 32 :: packetDwords ts := by
    show t.dwords ++ packetDwords ts = _
    rw [hdw]
    rfl
  have hformat : formatOf (packetDwords (t :: ts)) = some .memWrite3DWData := by
    rw [hall, ← ht.format]
    show some (TLPPacketFormat.unpack ((t.data.extractLsb' 96 32).extractLsb' 29 2)) =
      some (TLPPacketFormat.unpack ((t.data.extractLsb' 64 64).extractLsb' 61 2))
    rw [extractLsb'_extractLsb' _ (by decide), extractLsb'_extractLsb' _ (by decide)]
  unfold payload headerLength
  rw [hformat, hall]
  rfl

/-- The data of completions, beat by beat. -/
lemma arrivals_flatten {ps : List (List TLPData)} (hps : ∀ p ∈ ps, IsCompletion p) (tag : BitVec 8) :
    arrivals tag ps.flatten = ps.flatMap completionWords := by
  induction ps generalizing tag with
  | nil => rfl
  | cons p ps ih =>
    have hp := hps p (by simp)
    cases p with
    | nil => exact hp.elim
    | cons t ts =>
      obtain ⟨ht, hts⟩ := hp
      have htag : nextTag tag t = t.completionTag := by simp [nextTag, ht.sof]
      have hbeat : arrival tag t = [(t.data.extractLsb' 0 32, t.completionTag)] := by simp [arrival, ht.sof]
      have hfirst : arrivals tag (t :: ts) = completionWords (t :: ts) := by
        show arrival tag t ++ arrivals (nextTag tag t) ts = _
        rw [htag, hbeat, arrivals_data hts]
        unfold completionWords
        rw [payload_completion ht]
        rfl
      rw [List.flatten_cons, arrivals_append, hfirst, ih fun p' hp' => hps p' (by simp [hp']),
        List.flatMap_cons]

/-- What the engine can make sense of. -/
def TLPData.IsWellFormed (t : TLPData) : Prop := t.IsHeader ∨ t.IsData

/-- The beats of completions. -/
lemma isWellFormed_of_mem {ps : List (List TLPData)} (hps : ∀ p ∈ ps, IsCompletion p) {t : TLPData}
    (ht : t ∈ ps.flatten) : t.IsWellFormed := by
  obtain ⟨p, hp, htp⟩ := List.mem_flatten.mp ht
  have hcompletion := hps p hp
  cases p with
  | nil => exact hcompletion.elim
  | cons t' ts =>
    rcases List.mem_cons.mp htp with rfl | hmem
    · exact .inl hcompletion.1
    · exact .inr (hcompletion.2 t hmem)

/-! ## What is returned -/

/-- `readData` has made `r` of the dwords `g`: each is at its place with its bytes swapped, and the tag is
that of the first. -/
structure Returns (c : SlaveConfig) (g : List (BitVec 32 × BitVec 8))
    (r : BitVec (32 * c.width.words) × BitVec 6) : Prop where
  length : g.length = c.width.words
  data : ∀ (i : ℕ) d, g[i]? = some d → r.1.extractLsb' (32 * i) 32 = byteSwap d.1
  tag : g.head?.map (fun d => d.2.setWidth 6) = some r.2

/-- The dwords of the value that is made of them. -/
lemma extractLsb'_joinWords {ds : List (BitVec 32)} (hlen : ds.length = c.width.words) {i : ℕ} {d : BitVec 32}
    (hd : ds[i]? = some d) : (ReadSide.joinWords c ds).extractLsb' (32 * i) 32 = byteSwap d := by
  obtain ⟨hi, -⟩ := List.getElem?_eq_some_iff.mp hd
  ext b hb
  have hdiv : (32 * i + b) / 32 = i := by omega
  have hmod : (32 * i + b) % 32 = b := by omega
  rw [BitVec.getElem_extractLsb', ReadSide.joinWords, BitVec.getLsbD_ofNat, testBit_ofWords, List.reverse_reverse,
    hdiv, hmod, List.getElem?_map, hd, decide_eq_true (by omega : 32 * i + b < 32 * c.width.words)]
  simp only [Option.map_some, Option.getD_some, Bool.true_and]
  exact BitVec.getLsbD_eq_getElem hb

/-- The beats that have come. -/
def responses (tr : List (Event c)) : List TLPData :=
  tr.filterMap fun
    | .response tlp => some tlp
    | _ => none

/-- What has been returned. -/
def readDatas (tr : List (Event c)) : List (BitVec (32 * c.width.words) × BitVec 6) :=
  tr.filterMap fun
    | .readData data tag => some (data, tag)
    | _ => none

@[simp] lemma responses_append (tr es : List (Event c)) : responses (tr ++ es) = responses tr ++ responses es :=
  List.filterMap_append

@[simp] lemma readDatas_append (tr es : List (Event c)) : readDatas (tr ++ es) = readDatas tr ++ readDatas es :=
  List.filterMap_append

/-! ## What the rules do -/

/-- Four is a power of two. -/
lemma four_lanes : ∃ k, 4 = 2 ^ k := ⟨2, rfl⟩

namespace ReadSide

variable {s s' : ReadSide} {t : TLPData} {ts : List TLPData}

/-- The number of dwords of a beat of data. -/
lemma tlpWordCount_eq {k : ℕ} (h₁ : 1 ≤ k) (h₄ : k ≤ 4)
    (hbe : t.be = (BitVec.allOnes 16) <<< (16 - 4 * k)) : (tlpWordCount t).toNat = k := by
  unfold tlpWordCount
  rw [hbe]
  obtain rfl | rfl | rfl | rfl : k = 1 ∨ k = 2 ∨ k = 3 ∨ k = 4 := by omega
  all_goals rfl

lemma ofFn_reverseVec (d : BitVec 128) : List.ofFn (reverseVec d) = lanes d := by
  simp only [List.ofFn_succ, List.ofFn_zero]
  rfl

/-- Equal tags for some of the dwords of a beat. -/
lemma taken_const {count : LUInt 4} (hc : count.toNat ≤ 4) (tag : BitVec 8) :
    Mifo.taken count (fun _ => tag) = List.replicate count.toNat tag := by
  unfold Mifo.taken
  rw [List.ofFn_const, List.take_replicate, Nat.min_eq_left hc]

/-- What `handleTlpRule` puts into the queues. -/
lemma handleTlpRule_eq (ht : t.IsWellFormed) (hdecode : s.tlpDecodeFifo.items = t :: ts)
    (hcounts : s.tlpWordCountFifo.items = s.tlpDecodeFifo.items.map tlpWordCount) :
    ∃ count vec tag, count.toNat ≤ 4 ∧ Mifo.taken count vec = (arrival s.lastTag t).map Prod.fst ∧
      Mifo.taken count (fun _ => tag) = (arrival s.lastTag t).map Prod.snd ∧
      s.handleTlpRule = if s.completionReady then
        { s with hitReg := t.hit, lastTag := nextTag s.lastTag t }.complete count vec tag
        else some { s with hitReg := t.hit } := by
  have hfirst : s.tlpDecodeFifo.first = some t := Fifo.first_eq_some.mpr ⟨ts, hdecode⟩
  have hcount : s.tlpWordCountFifo.first = some (tlpWordCount t) := by
    rw [hdecode] at hcounts
    exact Fifo.first_eq_some.mpr ⟨_, hcounts⟩
  rcases ht with ht | ht
  · have htag : nextTag s.lastTag t = t.completionTag := by simp [nextTag, ht.sof]
    have hbeat : arrival s.lastTag t = [(t.data.extractLsb' 0 32, t.completionTag)] := by
      simp [arrival, ht.sof]
    refine ⟨1, fun i => if i = 0 then (TLPMemoryIO3DWHeader.unpack t.data).data else 0, t.completionTag,
      by decide, ?_, ?_, ?_⟩
    · rw [hbeat]
      rfl
    · rw [hbeat]
      rfl
    · have hready : { s with hitReg := t.hit }.completionReady = s.completionReady := rfl
      unfold handleTlpRule
      rw [hfirst, hcount, htag]
      simp only [bind, Option.bind_some, ht.sof, ht.format, ht.pkttype, hready, Bool.not_true, true_and]
      rfl
  · obtain ⟨k, h₁, h₄, hbe⟩ := ht.be
    have hk := tlpWordCount_eq h₁ h₄ hbe
    have htag : nextTag s.lastTag t = s.lastTag := by simp [nextTag, ht.sof]
    have hbeat : arrival s.lastTag t = ((lanes t.data).take k).map fun d => (d, s.lastTag) := by
      rw [← t.dwords_eq h₄ hbe]
      simp [arrival, ht.sof]
    refine ⟨tlpWordCount t, reverseVec t.data, s.lastTag, by omega, ?_, ?_, ?_⟩
    · unfold Mifo.taken
      rw [hbeat, ofFn_reverseVec, hk, List.map_map]
      exact (List.map_id _).symm
    · rw [hbeat, taken_const (by omega), hk, List.map_map]
      show _ = ((lanes t.data).take k).map (Function.const _ s.lastTag)
      rw [List.map_const, List.length_take]
      congr 1
      show k = min k 4
      omega
    · have hready : { s with hitReg := t.hit }.completionReady = s.completionReady := rfl
      unfold handleTlpRule
      rw [hfirst, hcount, htag]
      simp only [bind, Option.bind_some, ht.sof, hready, Bool.not_false]
      rfl

/-- `complete` puts its dwords and tags into the queues. -/
lemma complete_eq_some {count : LUInt 4} {vec : Fin 4 → BitVec 32} {tag : BitVec 8}
    (hs : s.complete count vec tag = some s') :
    ∃ m₁ m₂ q₁ q₂ t n, s.completionMimo.enq count vec = some m₁ ∧
      s.completionTagMimo.enq count (fun _ => tag) = some m₂ ∧ s.tlpDecodeFifo.items = t :: q₁.items ∧
      s.tlpWordCountFifo.items = n :: q₂.items ∧
      s' = { s with
        completionMimo := m₁, completionTagMimo := m₂, tlpDecodeFifo := q₁, tlpWordCountFifo := q₂ } := by
  simp only [complete, bind, pure, Option.bind_eq_some_iff, Prod.exists, Fifo.deq_eq_some,
    Option.some.injEq] at hs
  obtain ⟨m₁, h₁, m₂, h₂, t, q₁, h₃, n, q₂, h₄, rfl⟩ := hs
  exact ⟨m₁, m₂, q₁, q₂, t, n, h₁, h₂, h₃, h₄, rfl⟩

end ReadSide

/-- Where the dwords of the beats `rs` are: the beats `handled` have gone into the queues, the groups `gs` of
their dwords have been returned as `os`, and the dwords `xs` are in the queues. -/
structure Reassembly (rs : List TLPData) (os : List (BitVec (32 * c.width.words) × BitVec 6)) (s : ReadSide)
    (handled : List TLPData) (gs : List (List (BitVec 32 × BitVec 8)))
    (xs : List (BitVec 32 × BitVec 8)) : Prop where
  beats : rs = handled ++ (s.tlpDecodeFifo.items ++ s.tlpInFifo.items)
  counts : s.tlpWordCountFifo.items = s.tlpDecodeFifo.items.map ReadSide.tlpWordCount
  lastTag : s.lastTag = handled.foldl nextTag 0
  data : s.completionMimo.Holds (xs.map Prod.fst)
  tags : s.completionTagMimo.Holds (xs.map Prod.snd)
  words : gs.flatten ++ xs = arrivals 0 handled
  returned : List.Forall₂ (Returns c) gs os

namespace Reassembly

variable {rs : List TLPData} {os : List (BitVec (32 * c.width.words) × BitVec 6)} {s s' : ReadSide}
  {handled : List TLPData} {gs : List (List (BitVec 32 × BitVec 8))} {xs : List (BitVec 32 × BitVec 8)}

lemma reset : Reassembly (c := c) [] [] .reset [] [] [] where
  beats := rfl
  counts := rfl
  lastTag := rfl
  data := .reset
  tags := .reset
  words := rfl
  returned := .nil

/-- A beat comes. -/
lemma response (h : Reassembly rs os s handled gs xs) {t : TLPData} (hs : s.response t = some s') :
    Reassembly (rs ++ [t]) os s' handled gs xs := by
  simp only [ReadSide.response, bind, pure, Option.bind_eq_some_iff, Fifo.enq_eq_some, Option.some.injEq] at hs
  obtain ⟨q, ⟨-, hq⟩, rfl⟩ := hs
  refine { h with beats := ?_ }
  show rs ++ [t] = handled ++ (s.tlpDecodeFifo.items ++ q.items)
  rw [hq, h.beats]
  simp only [List.append_assoc]

/-- A beat is decoded. -/
lemma tlpInRule (h : Reassembly rs os s handled gs xs) (hs : s.tlpInRule = some s') :
    Reassembly rs os s' handled gs xs := by
  simp only [ReadSide.tlpInRule, bind, pure, Option.bind_eq_some_iff, Prod.exists, Fifo.deq_eq_some,
    Fifo.enq_eq_some, Option.some.injEq] at hs
  obtain ⟨t, q, hq, counts, ⟨-, hcounts⟩, decode, ⟨-, hdecode⟩, rfl⟩ := hs
  refine { h with beats := ?_, counts := ?_ }
  · show rs = handled ++ (decode.items ++ q.items)
    rw [h.beats, hq, hdecode]
    simp only [List.append_assoc, List.singleton_append]
  · show counts.items = decode.items.map ReadSide.tlpWordCount
    rw [hcounts, hdecode, h.counts, List.map_append]
    rfl

/-- The dwords of a beat go into the queues, or the beat has to wait. -/
lemma handleTlpRule (h : Reassembly rs os s handled gs xs) (hok : ∀ t ∈ rs, t.IsWellFormed)
    (hs : s.handleTlpRule = some s') : ∃ handled' xs', Reassembly rs os s' handled' gs xs' := by
  obtain ⟨t, hfirst, -⟩ := Option.bind_eq_some_iff.mp hs
  obtain ⟨ts, hdecode⟩ := Fifo.first_eq_some.mp hfirst
  have ht : t.IsWellFormed := hok t (by rw [h.beats, hdecode]; simp)
  obtain ⟨count, vec, tag, hcount, hvec, htag, heq⟩ := ReadSide.handleTlpRule_eq ht hdecode h.counts
  rw [heq] at hs
  split at hs
  · obtain ⟨m₁, m₂, q₁, q₂, t', n, h₁, h₂, h₃, h₄, rfl⟩ := ReadSide.complete_eq_some hs
    have hcounts : s.tlpWordCountFifo.items = n :: q₂.items := h₄
    obtain ⟨rfl, rfl⟩ : t = t' ∧ ts = q₁.items := List.cons.inj (hdecode.symm.trans h₃)
    rw [h.lastTag] at hvec htag
    refine ⟨handled ++ [t], xs ++ arrival (handled.foldl nextTag 0) t, ?_, ?_, ?_, ?_, ?_, ?_, h.returned⟩
    · show rs = handled ++ [t] ++ (q₁.items ++ s.tlpInFifo.items)
      rw [h.beats, hdecode]
      simp only [List.append_assoc, List.cons_append, List.nil_append]
    · show q₂.items = q₁.items.map ReadSide.tlpWordCount
      rw [h.counts, hdecode, List.map_cons] at hcounts
      exact (List.cons.inj hcounts).2.symm
    · show nextTag s.lastTag t = _
      rw [h.lastTag, List.foldl_append]
      rfl
    · rw [List.map_append, ← hvec]
      exact h.data.enq four_lanes hcount h₁
    · rw [List.map_append, ← htag]
      exact h.tags.enq four_lanes hcount h₂
    · rw [← List.append_assoc, h.words, arrivals_append]
      show _ = _ ++ (arrival (handled.foldl nextTag 0) t ++ [])
      rw [List.append_nil]
  · cases hs
    exact ⟨handled, xs, { h with }⟩

/-- Dwords go to the lanes. -/
lemma tofifosData (h : Reassembly rs os s handled gs xs) (hs : s.tofifosData = some s') :
    Reassembly rs os s' handled gs xs := by
  obtain ⟨m, hm, hs⟩ := Option.bind_eq_some_iff.mp hs
  cases hs
  exact { h with data := h.data.tofifos four_lanes hm }

/-- Tags go to the lanes. -/
lemma tofifosTag (h : Reassembly rs os s handled gs xs) (hs : s.tofifosTag = some s') :
    Reassembly rs os s' handled gs xs := by
  obtain ⟨m, hm, hs⟩ := Option.bind_eq_some_iff.mp hs
  cases hs
  exact { h with tags := h.tags.tofifos four_lanes hm }

/-- **Dwords are returned** when there are enough of them and as many tags: they are the oldest. -/
lemma exists_readData (h : Reassembly rs os s handled gs xs)
    (hdata : s.completionMimo.deqReady c.width.words = true)
    (htags : s.completionTagMimo.deqReady c.width.words = true) :
    ∃ data tag m₁ m₂, s.readData c =
        some (data, tag, { s with completionMimo := m₁, completionTagMimo := m₂ }) ∧
      m₁.inFifo = s.completionMimo.inFifo ∧ m₂.inFifo = s.completionTagMimo.inFifo ∧
      Reassembly rs (os ++ [(data, tag)]) { s with completionMimo := m₁, completionTagMimo := m₂ } handled
        (gs ++ [xs.take c.width.words]) (xs.drop c.width.words) := by
  obtain ⟨hlen, hfirst, m₁, hdeq, hm₁⟩ := h.data.first_deq four_lanes c.width.le hdata
  obtain ⟨-, hfirst', m₂, hdeq', hm₂⟩ := h.tags.first_deq four_lanes c.width.le htags
  rw [List.length_map] at hlen
  rw [← List.map_take] at hfirst hfirst'
  rw [← List.map_drop] at hm₁ hm₂
  have hgroup : (xs.take c.width.words).length = c.width.words := by
    rw [List.length_take]
    omega
  obtain ⟨x, xs', htake⟩ : ∃ x xs', xs.take c.width.words = x :: xs' := by
    refine List.exists_cons_of_ne_nil fun hnil => ?_
    rw [hnil] at hgroup
    exact absurd hgroup.symm (Nat.ne_of_gt c.width.pos)
  refine ⟨ReadSide.joinWords c ((xs.take c.width.words).map Prod.fst), x.2.setWidth 6, m₁, m₂, ?_,
    Mifo.inFifo_deq hdeq, Mifo.inFifo_deq hdeq', { h with data := hm₁, tags := hm₂, words := ?_, returned := ?_ }⟩
  · unfold ReadSide.readData
    rw [if_pos ⟨hdata, htags⟩, hfirst, hfirst', hdeq, hdeq', htake]
    rfl
  · rw [List.flatten_append, List.append_assoc, List.flatten_singleton, List.take_append_drop, h.words]
  · refine List.rel_append h.returned (.cons ⟨hgroup, fun i d hd => ?_, ?_⟩ .nil)
    · refine extractLsb'_joinWords ?_ ?_
      · rw [List.length_map, hgroup]
      · rw [List.getElem?_map, hd]
        rfl
    · rw [htake]
      rfl

lemma readData (h : Reassembly rs os s handled gs xs) {data : BitVec (32 * c.width.words)} {tag : BitVec 6}
    (hs : s.readData c = some (data, tag, s')) :
    ∃ gs' xs', Reassembly rs (os ++ [(data, tag)]) s' handled gs' xs' := by
  have hready : s.completionMimo.deqReady c.width.words = true ∧
      s.completionTagMimo.deqReady c.width.words = true := by
    unfold ReadSide.readData at hs
    split at hs
    · assumption
    · cases hs
  obtain ⟨data', tag', m₁, m₂, heq, -, -, h'⟩ := h.exists_readData hready.1 hready.2
  rw [heq] at hs
  cases hs
  exact ⟨_, _, h'⟩

/-! ## Runs -/

/-- One step. -/
lemma step {tr es : List (Event c)} {s s' : MemSlaveEngine} {a : Action c}
    (h : Reassembly (responses tr) (readDatas tr) s.readSide handled gs xs)
    (hok : ∀ t ∈ responses (tr ++ es), t.IsWellFormed)
    (hs : (memSlaveEngine c).step s a = some (s', es)) :
    ∃ handled gs xs, Reassembly (responses (tr ++ es)) (readDatas (tr ++ es)) s'.readSide handled gs xs := by
  rw [responses_append] at hok ⊢
  rw [readDatas_append]
  have hother (hside : s'.readSide = s.readSide) (hin : responses es = []) (hout : readDatas es = []) :
      ∃ handled gs xs, Reassembly (responses tr ++ responses es) (readDatas tr ++ readDatas es) s'.readSide
        handled gs xs := by
    rw [hside, hin, hout, List.append_nil, List.append_nil]
    exact ⟨handled, gs, xs, h⟩
  have hsent (tlp : Option TLPData) : responses (tlp.toList.map (.sent : TLPData → Event c)) = [] ∧
      readDatas (tlp.toList.map (.sent : TLPData → Event c)) = [] := by
    cases tlp <;> exact ⟨rfl, rfl⟩
  have hrule (h : ∃ handled gs xs, Reassembly (responses tr) (readDatas tr) s'.readSide handled gs xs) :
      ∃ handled gs xs, Reassembly (responses tr ++ []) (readDatas tr ++ []) s'.readSide handled gs xs := by
    rwa [List.append_nil, List.append_nil]
  cases a with
  | writeReq | writeData | writeDone | readReq | request | writeHeaderTlp | writeTlps =>
    obtain ⟨w, -, hs⟩ := Option.bind_eq_some_iff.mp hs
    cases hs
    first
    | exact hother rfl rfl rfl
    | exact hother rfl (hsent _).1 (hsent _).2
  | response t =>
    obtain ⟨r, hr, hs⟩ := Option.bind_eq_some_iff.mp hs
    cases hs
    refine ⟨handled, gs, xs, ?_⟩
    show Reassembly (responses tr ++ [t]) (readDatas tr ++ []) r handled gs xs
    rw [List.append_nil]
    exact h.response hr
  | tlpInRule =>
    obtain ⟨r, hr, hs⟩ := Option.bind_eq_some_iff.mp hs
    cases hs
    exact hrule ⟨handled, gs, xs, h.tlpInRule hr⟩
  | handleTlpRule =>
    obtain ⟨r, hr, hs⟩ := Option.bind_eq_some_iff.mp hs
    cases hs
    obtain ⟨handled', xs', h'⟩ := h.handleTlpRule (fun t ht => hok t (by simp [ht])) hr
    exact hrule ⟨handled', gs, xs', h'⟩
  | tofifosData =>
    obtain ⟨r, hr, hs⟩ := Option.bind_eq_some_iff.mp hs
    cases hs
    exact hrule ⟨handled, gs, xs, h.tofifosData hr⟩
  | tofifosTag =>
    obtain ⟨r, hr, hs⟩ := Option.bind_eq_some_iff.mp hs
    cases hs
    exact hrule ⟨handled, gs, xs, h.tofifosTag hr⟩
  | readData =>
    obtain ⟨⟨data, tag, r⟩, hr, hs⟩ := Option.bind_eq_some_iff.mp hs
    cases hs
    obtain ⟨gs', xs', h'⟩ := h.readData hr
    refine ⟨handled, gs', xs', ?_⟩
    show Reassembly (responses tr ++ []) (readDatas tr ++ [(data, tag)]) r handled gs' xs'
    rw [List.append_nil]
    exact h'

/-- The dwords that have been returned or are in the queues are the first ones of the completions. -/
lemma prefix_words (h : Reassembly rs os s handled gs xs) {ps : List (List TLPData)}
    (hps : ∀ p ∈ ps, IsCompletion p) (hin : rs <+: ps.flatten) :
    gs.flatten ++ xs <+: ps.flatMap completionWords := by
  obtain ⟨rest, hrest⟩ := hin
  rw [h.words, ← arrivals_flatten hps 0, ← hrest, h.beats, List.append_assoc, arrivals_append]
  exact List.prefix_append _ _

/-- The number of dwords that have been returned. -/
lemma length_flatten (h : Reassembly rs os s handled gs xs) :
    gs.flatten.length = c.width.words * os.length := by
  have hret := h.returned
  clear h
  induction hret with
  | nil => rfl
  | cons hg _ ih => rw [List.flatten_cons, List.length_append, hg.length, ih, List.length_cons, Nat.mul_succ,
      Nat.add_comm]

/-! ## Nothing gets stuck -/

/-- If no data wait, a beat can be handled. -/
lemma exists_handleTlpRule (h : Reassembly rs os s handled gs xs) {t : TLPData} {ts : List TLPData}
    (ht : t.IsWellFormed) (hdecode : s.tlpDecodeFifo.items = t :: ts)
    (hdata : s.completionMimo.inFifo.items = []) (htags : s.completionTagMimo.inFifo.items = []) :
    ∃ s', s.handleTlpRule = some s' ∧ s'.tlpInFifo = s.tlpInFifo ∧ s'.tlpDecodeFifo.items = ts ∧
      s'.completionMimo.inFifo.items.length = 1 ∧ s'.completionTagMimo.inFifo.items.length = 1 := by
  obtain ⟨count, vec, tag, -, -, -, heq⟩ := ReadSide.handleTlpRule_eq ht hdecode h.counts
  have hcounts := h.counts
  rw [hdecode, List.map_cons] at hcounts
  have hready : s.completionMimo.enqReady = true := by simp [Mifo.enqReady, hdata]
  have hready' : s.completionTagMimo.enqReady = true := by simp [Mifo.enqReady, htags]
  obtain ⟨m₁, h₁, hlen₁⟩ := h.data.exists_enq hready count vec
  obtain ⟨m₂, h₂, hlen₂⟩ := h.tags.exists_enq hready' count fun _ => tag
  obtain ⟨q₁, h₃, hq₁⟩ := Fifo.exists_deq hdecode
  obtain ⟨q₂, h₄, -⟩ := Fifo.exists_deq hcounts
  rw [hdata] at hlen₁
  rw [htags] at hlen₂
  refine ⟨{ s with
    hitReg := t.hit, lastTag := nextTag s.lastTag t
    completionMimo := m₁, completionTagMimo := m₂, tlpDecodeFifo := q₁, tlpWordCountFifo := q₂ },
    ?_, rfl, hq₁, hlen₁, hlen₂⟩
  rw [heq, if_pos (by simp [ReadSide.completionReady, hready, hready'])]
  simp only [ReadSide.complete, h₁, h₂, h₃, h₄, bind, pure, Option.bind_some]

/-- If no beat is being handled, one can be decoded. -/
lemma exists_tlpInRule (h : Reassembly rs os s handled gs xs) {t : TLPData} {ts : List TLPData}
    (hin : s.tlpInFifo.items = t :: ts) (hdecode : s.tlpDecodeFifo.items = []) :
    ∃ q q' q'', s.tlpInRule = some { s with tlpInFifo := q, tlpDecodeFifo := q', tlpWordCountFifo := q'' } ∧
      q.items = ts ∧ q'.items = [t] := by
  have hcounts := h.counts
  rw [hdecode, List.map_nil] at hcounts
  obtain ⟨q, hq, hitems⟩ := Fifo.exists_deq hin
  obtain ⟨q', hq', hitems'⟩ := Fifo.exists_enq (by rw [hdecode]; decide : s.tlpDecodeFifo.items.length < 2) t
  obtain ⟨q'', hq'', -⟩ := Fifo.exists_enq (by rw [hcounts]; decide : s.tlpWordCountFifo.items.length < 2)
    (ReadSide.tlpWordCount t)
  refine ⟨q, q', q'', ?_, hitems, by rw [hitems', hdecode]; rfl⟩
  simp only [ReadSide.tlpInRule, hq, hq', hq'', bind, pure, Option.bind_some]

end Reassembly

/-- Nothing is under way. -/
def ReadSide.IsIdle (s : ReadSide) : Prop :=
  s.tlpInFifo.items = [] ∧ s.tlpDecodeFifo.items = [] ∧ s.completionMimo.IsEmpty ∧ s.completionTagMimo.IsEmpty

/-- What is left to do, of `n` dwords. -/
def ReadSide.load (s : ReadSide) (n : ℕ) (tr : List (Event c)) : ℕ :=
  8 * s.tlpInFifo.items.length + 4 * s.tlpDecodeFifo.items.length + s.completionMimo.inFifo.items.length +
    s.completionTagMimo.inFifo.items.length + (n - (readDatas tr).length)

/-- The completions have a whole number of groups. -/
lemma dvd_length_completionWords {ps : List (List TLPData)}
    (hmul : ∀ p ∈ ps, c.width.words ∣ (payload p).length) :
    c.width.words ∣ (ps.flatMap completionWords).length := by
  induction ps with
  | nil => exact Nat.dvd_zero _
  | cons p ps ih =>
    have hp : c.width.words ∣ (completionWords p).length := by
      unfold completionWords
      rw [List.length_map]
      exact hmul p (by simp)
    rw [List.flatMap_cons, List.length_append]
    exact Nat.dvd_add hp (ih fun p' hp' => hmul p' (by simp [hp']))

namespace Reassembly

variable {rs : List TLPData} {os : List (BitVec (32 * c.width.words) × BitVec 6)} {s : ReadSide}
  {handled : List TLPData} {gs : List (List (BitVec 32 × BitVec 8))} {xs : List (BitVec 32 × BitVec 8)}
  {ps : List (List TLPData)}

/-- When all beats have been handled and there is less than a group of dwords, there is none. -/
lemma eq_nil_of_lt (h : Reassembly rs os s handled gs xs) (hps : ∀ p ∈ ps, IsCompletion p)
    (hmul : ∀ p ∈ ps, c.width.words ∣ (payload p).length) (hhandled : handled = ps.flatten)
    (hxs : xs.length < c.width.words) : xs = [] := by
  have hall := congrArg List.length h.words
  rw [hhandled, arrivals_flatten hps, List.length_append, h.length_flatten] at hall
  have hdvd := dvd_length_completionWords (c := c) hmul
  rw [← hall, Nat.dvd_add_right (Nat.dvd_mul_right _ _)] at hdvd
  exact List.eq_nil_of_length_eq_zero (Nat.eq_zero_of_dvd_of_lt hdvd hxs)

/-- If there are too few dwords to be returned, nothing waits once the queues have settled. -/
lemma inFifo_eq_nil (h : Reassembly rs os s handled gs xs) (hxs : xs.length < c.width.words)
    (hdata : s.completionMimo.inFifo.items = [] ∨ s.completionMimo.deqReady c.width.words = true)
    (htags : s.completionTagMimo.inFifo.items = [] ∨ s.completionTagMimo.deqReady c.width.words = true) :
    s.completionMimo.inFifo.items = [] ∧ s.completionTagMimo.inFifo.items = [] := by
  constructor
  · refine hdata.resolve_right fun hready => ?_
    have hle := (h.data.first_deq four_lanes c.width.le hready).1
    rw [List.length_map] at hle
    omega
  · refine htags.resolve_right fun hready => ?_
    have hle := (h.tags.first_deq four_lanes c.width.le hready).1
    rw [List.length_map] at hle
    omega

/-- If there are enough dwords to be returned, they are in the lanes once the queues have settled. -/
lemma deqReady_of_le (h : Reassembly rs os s handled gs xs) (hxs : c.width.words ≤ xs.length)
    (hdata : s.completionMimo.inFifo.items = [] ∨ s.completionMimo.deqReady c.width.words = true)
    (htags : s.completionTagMimo.inFifo.items = [] ∨ s.completionTagMimo.deqReady c.width.words = true) :
    s.completionMimo.deqReady c.width.words = true ∧ s.completionTagMimo.deqReady c.width.words = true := by
  constructor
  · rcases hdata with hnil | hready
    · exact h.data.deqReady four_lanes c.width.le hnil (by rwa [List.length_map])
    · exact hready
  · rcases htags with hnil | hready
    · exact h.tags.deqReady four_lanes c.width.le hnil (by rwa [List.length_map])
    · exact hready

end Reassembly

/-- When all beats have come, a rule or `readData` gets on with what is under way.

**Proof sketch.** First the queues: what waits goes to the lanes, unless these are full, and then dwords can be
returned. If there are too few of them for that, nothing waits, and a beat can be handled. In the end there
are no beats, and less than a group of dwords; there is none then, since there is a whole number of groups. -/
lemma Reassembly.progress {tr : List (Event c)} {s : MemSlaveEngine} {handled : List TLPData}
    {gs : List (List (BitVec 32 × BitVec 8))} {xs : List (BitVec 32 × BitVec 8)} {ps : List (List TLPData)}
    (h : Reassembly (responses tr) (readDatas tr) s.readSide handled gs xs)
    (hps : ∀ p ∈ ps, IsCompletion p) (hmul : ∀ p ∈ ps, c.width.words ∣ (payload p).length)
    (hin : responses tr = ps.flatten) :
    s.readSide.IsIdle ∨ ∃ a s' es, (memSlaveEngine c).step s a = some (s', es) ∧ responses es = [] ∧
      s'.readSide.load (ps.flatMap completionWords).length (tr ++ es) <
        s.readSide.load (ps.flatMap completionWords).length tr := by
  have hlen := (h.prefix_words hps (hin ▸ List.prefix_rfl)).length_le
  rw [List.length_append, h.length_flatten] at hlen
  have hpos := c.width.pos
  rcases h.data.settles four_lanes c.width.le with ⟨m, hm, hlt⟩ | hdata
  · refine .inr ⟨.tofifosData, { s with readSide := { s.readSide with completionMimo := m } }, [], ?_, rfl, ?_⟩
    · simp only [memSlaveEngine, ReadSide.tofifosData, hm, bind, pure, Option.bind_some]
    · rw [List.append_nil]
      simp only [ReadSide.load]
      omega
  rcases h.tags.settles four_lanes c.width.le with ⟨m, hm, hlt⟩ | htags
  · refine .inr ⟨.tofifosTag, { s with readSide := { s.readSide with completionTagMimo := m } }, [], ?_, rfl, ?_⟩
    · simp only [memSlaveEngine, ReadSide.tofifosTag, hm, bind, pure, Option.bind_some]
    · rw [List.append_nil]
      simp only [ReadSide.load]
      omega
  by_cases hxs : c.width.words ≤ xs.length
  · -- a group of dwords is in the lanes
    obtain ⟨hready, hready'⟩ := h.deqReady_of_le hxs hdata htags
    obtain ⟨data, tag, m₁, m₂, hs, h₁, h₂, -⟩ := h.exists_readData hready hready'
    refine .inr ⟨.readData, { s with
      readSide := { s.readSide with completionMimo := m₁, completionTagMimo := m₂ } },
      [.readData data tag], ?_, rfl, ?_⟩
    · simp only [memSlaveEngine, hs, bind, pure, Option.bind_some]
    · have hone : readDatas [(.readData data tag : Event c)] = [(data, tag)] := rfl
      simp only [ReadSide.load, h₁, h₂, readDatas_append, hone, List.length_append, List.length_singleton]
      have hcount : (readDatas tr).length ≤ c.width.words * (readDatas tr).length :=
        Nat.le_mul_of_pos_left _ hpos
      omega
  · obtain ⟨hnil, hnil'⟩ := h.inFifo_eq_nil (by omega) hdata htags
    cases hdecode : s.readSide.tlpDecodeFifo.items with
    | cons t ts =>
      have ht : t.IsWellFormed := isWellFormed_of_mem hps (by rw [← hin, h.beats, hdecode]; simp)
      obtain ⟨r, hr, hin', hdecode', hlen₁, hlen₂⟩ := h.exists_handleTlpRule ht hdecode hnil hnil'
      refine .inr ⟨.handleTlpRule, { s with readSide := r }, [], ?_, rfl, ?_⟩
      · simp only [memSlaveEngine, hr, bind, pure, Option.bind_some]
      · rw [List.append_nil]
        simp only [ReadSide.load, hin', hdecode', hlen₁, hlen₂, hdecode, List.length_cons]
        omega
    | nil =>
      cases hbeats : s.readSide.tlpInFifo.items with
      | cons t ts =>
        obtain ⟨q, q', q'', hr, hq, hq'⟩ := h.exists_tlpInRule hbeats hdecode
        refine .inr ⟨.tlpInRule, { s with readSide := { s.readSide with
          tlpInFifo := q, tlpDecodeFifo := q', tlpWordCountFifo := q'' } }, [], ?_, rfl, ?_⟩
        · simp only [memSlaveEngine, hr, bind, pure, Option.bind_some]
        · rw [List.append_nil]
          simp only [ReadSide.load, hq, hq', hdecode, hbeats, List.length_cons, List.length_nil]
          omega
      | nil =>
        have hhandled : handled = ps.flatten := by
          rw [← hin, h.beats, hdecode, hbeats]
          simp
        obtain rfl := h.eq_nil_of_lt hps hmul hhandled (by omega)
        exact .inl ⟨hbeats, hdecode, (h.data.isEmpty_iff hnil).mpr rfl, (h.tags.isEmpty_iff hnil').mpr rfl⟩

/-- The invariant holds in every run in which only beats come that the engine can make sense of. -/
lemma exists_reassembly {tr : List (Event c)} {s : MemSlaveEngine}
    (h : (memSlaveEngine c).Reaches .reset tr s) (hok : ∀ t ∈ responses tr, t.IsWellFormed) :
    ∃ handled gs xs, Reassembly (responses tr) (readDatas tr) s.readSide handled gs xs := by
  have hreset : ∃ handled gs xs, Reassembly (c := c) [] [] MemSlaveEngine.reset.readSide handled gs xs :=
    ⟨[], [], [], .reset⟩
  refine h.invariant (I := fun tr (s : MemSlaveEngine) => (∀ t ∈ responses tr, t.IsWellFormed) →
    ∃ handled gs xs, Reassembly (responses tr) (readDatas tr) s.readSide handled gs xs)
    (fun _ => hreset) ?_ hok
  intro tr s a s' es ih hs hok
  obtain ⟨handled, gs, xs, hr⟩ := ih fun t ht => hok t (by simp [ht])
  exact hr.step hok hs

/-- **Completions are returned in order.** Whatever the order of the steps, if the beats that come are those
of completions, then `readData` has returned the first groups of their data; all of the data, if all beats
have come and nothing is under way. And once all beats have come, this can be reached, if every completion
has a whole number of groups.

**Proof sketch.** Dwords and tags go into the queues and out of them together (`Reassembly`), the queues are
queues (`Mifo.Holds`), and nothing gets stuck (`Reassembly.progress`). -/
theorem returns_completions {tr : List (Event c)} {s : MemSlaveEngine}
    (h : (memSlaveEngine c).Reaches .reset tr s) {ps : List (List TLPData)}
    (hps : ∀ p ∈ ps, IsCompletion p) (hmul : ∀ p ∈ ps, c.width.words ∣ (payload p).length)
    (hin : responses tr <+: ps.flatten) :
    (∃ gs, List.Forall₂ (Returns c) gs (readDatas tr) ∧ gs.flatten <+: ps.flatMap completionWords ∧
      (responses tr = ps.flatten → s.readSide.IsIdle → gs.flatten = ps.flatMap completionWords)) ∧
    (responses tr = ps.flatten → ∃ tr' s', (memSlaveEngine c).Reaches s tr' s' ∧ responses tr' = [] ∧
      s'.readSide.IsIdle) := by
  have hok {l : List TLPData} (hl : l <+: ps.flatten) (t : TLPData) (ht : t ∈ l) : t.IsWellFormed :=
    isWellFormed_of_mem hps (hl.subset ht)
  obtain ⟨handled, gs, xs, hr⟩ := exists_reassembly h (hok hin)
  refine ⟨⟨gs, hr.returned, (List.prefix_append _ _).trans (hr.prefix_words hps hin), fun hall hidle => ?_⟩,
    fun hall => ?_⟩
  · obtain ⟨hbeats, hdecode, hdata, -⟩ := hidle
    have hxs : xs = [] := List.map_eq_nil_iff.mp ((hr.data.isEmpty_iff hdata.1).mp hdata)
    have hhandled : handled = ps.flatten := by
      rw [← hall, hr.beats, hdecode, hbeats]
      simp
    have hwords := hr.words
    rwa [hxs, List.append_nil, hhandled, arrivals_flatten hps] at hwords
  · have hdrain := RuleSystem.exists_drained (M := memSlaveEngine c)
      (I := fun t s => ∃ handled gs xs, Reassembly (responses t) (readDatas t) s.readSide handled gs xs)
      (E := fun _ s => s.readSide.IsIdle) responses (fun t s => s.readSide.load (ps.flatMap completionWords).length t)
      ⟨handled, gs, xs, hr⟩ ?_
    · obtain ⟨tr', s', hreach, -, hin', hidle⟩ := hdrain
      refine ⟨tr', s', hreach, ?_, hidle⟩
      rw [responses_append] at hin'
      exact List.append_cancel_left (hin'.trans (List.append_nil _).symm)
    · rintro t s ⟨handled, gs, xs, hr⟩ hsame hbusy
      obtain ⟨a, s', es, hs, hes, hlt⟩ := (hr.progress hps hmul (hsame.trans hall)).resolve_left hbusy
      have hsame' : responses (t ++ es) = responses t := by rw [responses_append, hes, List.append_nil]
      have hall' : responses (t ++ es) = ps.flatten := (hsame'.trans hsame).trans hall
      exact ⟨a, s', es, hs, hr.step (hok (hall' ▸ List.prefix_rfl)) hs, hsame', hlt⟩

/-- A completion with four dwords. -/
def firstCompletion : List TLPData :=
  [⟨true, false, 0, 0xffff, 0x4a000004000000100000050001000000⟩,
    ⟨false, true, 0, 0xfff0, 0x02000000030000000400000000000000⟩]

/-- A completion with two dwords. -/
def secondCompletion : List TLPData :=
  [⟨true, false, 0, 0xffff, 0x4a000002000000080000090005000000⟩,
    ⟨false, true, 0, 0xf000, 0x06000000000000000000000000000000⟩]

/-- The two completions come and are returned. The last beat finds no room at first. -/
def twoCompletions :=
  (memSlaveEngine twoWords).run .reset
    (firstCompletion.map .response ++
      [.tlpInRule, .handleTlpRule, .tlpInRule, .tofifosData, .handleTlpRule] ++
      secondCompletion.map .response ++
      [.tlpInRule, .tofifosTag, .handleTlpRule, .tlpInRule, .handleTlpRule, .tofifosData, .tofifosTag, .readData,
        .tofifosData, .tofifosTag, .handleTlpRule, .readData, .tofifosData, .tofifosTag, .readData])

theorem returns_completions_twoCompletions :
    readDatas twoCompletions.2 = [(0x0000000200000001, 5), (0x0000000400000003, 5), (0x0000000600000005, 9)] ∧
      (∃ gs, List.Forall₂ (Returns twoWords) gs (readDatas twoCompletions.2) ∧
        gs.flatten <+: [firstCompletion, secondCompletion].flatMap completionWords ∧
        (responses twoCompletions.2 = [firstCompletion, secondCompletion].flatten →
          twoCompletions.1.readSide.IsIdle →
          gs.flatten = [firstCompletion, secondCompletion].flatMap completionWords)) ∧
      (responses twoCompletions.2 = [firstCompletion, secondCompletion].flatten →
        ∃ tr' s', (memSlaveEngine twoWords).Reaches twoCompletions.1 tr' s' ∧ responses tr' = [] ∧
          s'.readSide.IsIdle) := by
  have hfirst : IsCompletion firstCompletion :=
    ⟨⟨rfl, rfl, by decide, by decide⟩, by simpa [firstCompletion] using ⟨rfl, 3, by decide, by decide, rfl⟩⟩
  have hsecond : IsCompletion secondCompletion :=
    ⟨⟨rfl, rfl, by decide, by decide⟩, by simpa [secondCompletion] using ⟨rfl, 1, by decide, by decide, rfl⟩⟩
  refine ⟨by decide +kernel, returns_completions (RuleSystem.reaches_run _ _) ?_ ?_ (by decide +kernel)⟩
  · simpa using ⟨hfirst, hsecond⟩
  · decide +kernel

end Xbsv
