import Xbsv.Pcie.Gearbox
import Xbsv.Rules.Drain

set_option relaxedAutoImplicit false
set_option autoImplicit false

/-!
# Nothing is lost in the gearbox

The two directions undo each other. Packets of short beats that are made long and short again are the same
packets, and long beats that are cut and put together again are the same but for bytes that do not count.
In both cases the beats that come out on one side go in again there, at any time after.

## Main definitions

* `Xbsv.IsShortPacket` — a packet of short beats.
* `Xbsv.IsLongBeat` — a beat whose first half has bytes, and the second too unless it ends a packet.
* `Xbsv.SameBytes` — beats that differ in bytes that do not count only.

## Main results

* `Xbsv.gearbox_lossless` — nothing is lost, from `Xbsv.receive_transmit` for short beats that are made long and short
  again, and `Xbsv.transmit_receive` for long beats that are cut and put together again.
-/

namespace Xbsv

open Rules PcieGearbox

variable {c : GearboxConfig}

/-! ## Packets of short beats -/

/-- A packet: `sof` on the first beat only, `eof` on the last only, bytes in every beat, and one value of `hit`. -/
structure IsShortPacket (p : List TLPData8) : Prop where
  sof : ∃ t ts, p = t :: ts ∧ t.sof = true ∧ ∀ u ∈ ts, u.sof = false
  eof : ∃ ts t, p = ts ++ [t] ∧ t.eof = true ∧ ∀ u ∈ ts, u.eof = false
  be : ∀ t ∈ p, t.be ≠ 0
  hit : ∀ t ∈ p, ∀ u ∈ p, t.hit = u.hit

/-- What a beat says about the next one: without `eof` they are in the same packet. -/
def Follows (t u : TLPData8) : Prop := t.eof = false → u.sof = false ∧ u.hit = t.hit

/-- The beats of a packet follow each other. -/
lemma isChain_follows {t : TLPData8} {ts : List TLPData8} (hsof : ∀ u ∈ ts, u.sof = false)
    (hhit : ∀ u ∈ t :: ts, ∀ u' ∈ t :: ts, u.hit = u'.hit) : (t :: ts).IsChain Follows := by
  induction ts generalizing t with
  | nil => exact List.isChain_singleton t
  | cons u ts ih =>
    rw [List.isChain_cons_cons]
    refine ⟨fun _ => ⟨hsof u (by simp), hhit u (by simp) t (by simp)⟩, ih (fun u' hu' => hsof u' (by simp [hu'])) ?_⟩
    intro x hx y hy
    exact hhit x (List.mem_cons_of_mem t hx) y (List.mem_cons_of_mem t hy)

section Packets

variable {ps : List (List TLPData8)}

/-- The beats of packets follow each other. -/
lemma isChain_flatten (h : ∀ p ∈ ps, IsShortPacket p) : ps.flatten.IsChain Follows := by
  have hne : [] ∉ ps := by
    intro hmem
    obtain ⟨t, ts, hnil, -⟩ := (h [] hmem).sof
    cases hnil
  rw [List.isChain_flatten hne]
  refine ⟨fun p hp => ?_, ?_⟩
  · obtain ⟨t, ts, rfl, -, hsof⟩ := (h p hp).sof
    exact isChain_follows hsof (h _ hp).hit
  · -- the last beat of a packet says nothing about the next one
    refine List.Pairwise.isChain ?_
    refine List.pairwise_of_forall_mem_list fun p hp q hq x hx y hy heof => ?_
    obtain ⟨ts, t, rfl, ht, -⟩ := (h p hp).eof
    rw [List.getLast?_concat] at hx
    obtain rfl := Option.some.inj hx
    rw [ht] at heof
    cases heof

/-- Packets end with `eof`. -/
lemma eof_of_getLast? (h : ∀ p ∈ ps, IsShortPacket p) {t : TLPData8} (ht : ps.flatten.getLast? = some t) :
    t.eof = true := by
  induction ps using List.reverseRecOn with
  | nil => cases ht
  | append_singleton ps p _ =>
    obtain ⟨ts, u, rfl, hu, -⟩ := (h p (by simp)).eof
    rw [List.flatten_append, List.flatten_singleton, ← List.append_assoc, List.getLast?_concat] at ht
    obtain rfl := Option.some.inj ht
    exact hu

/-- All beats of packets have bytes. -/
lemma isValid_of_mem (h : ∀ p ∈ ps, IsShortPacket p) {t : TLPData8} (ht : t ∈ ps.flatten) : t.isValid = true := by
  obtain ⟨p, hp, htp⟩ := List.mem_flatten.mp ht
  exact decide_eq_true ((h p hp).be t htp)

/-- After packets, the next half is a first one. -/
lemma oddAfter_flatten (h : ∀ p ∈ ps, IsShortPacket p) : oddAfter false ps.flatten = false := by
  cases hl : ps.flatten.getLast? with
  | none =>
    rw [List.getLast?_eq_none_iff.mp hl]
    rfl
  | some t =>
    obtain ⟨l, hl'⟩ := List.getLast?_eq_some_iff.mp hl
    rw [hl', oddAfter_concat, eof_of_getLast? h hl]
    simp

end Packets

/-! ## Short beats made long and short again -/

/-- A pair of halves: a beat that ends a packet with one that has no bytes, or two beats of the same packet. -/
def GoodPair (c : GearboxConfig) (v : TLPData8 × TLPData8) : Prop :=
  (v.1.eof = true ∧ v.2 = c.invalid) ∨
    (v.1.eof = false ∧ v.2.sof = false ∧ v.2.hit = v.1.hit ∧ v.2.isValid = true)

/-- The halves of packets are pairs. -/
lemma exists_goodPairs {l : List TLPData8} (hchain : l.IsChain Follows) (hvalid : ∀ t ∈ l, t.isValid = true)
    (hlast : ∀ t, l.getLast? = some t → t.eof = true) :
    ∃ vs : List (TLPData8 × TLPData8), padded c false l = vs.flatMap halves ∧ ∀ v ∈ vs, GoodPair c v := by
  -- one beat or two are taken off at a time
  induction hn : l.length using Nat.strong_induction_on generalizing l with
  | _ n ih =>
    cases l with
    | nil => exact ⟨[], rfl, fun v hv => by cases hv⟩
    | cons t l =>
      cases heof : t.eof with
      | true =>
        have hlast' : ∀ u, l.getLast? = some u → u.eof = true := by
          intro u hu
          refine hlast u ?_
          rw [List.getLast?_cons, hu]
          rfl
        have hchain' : l.IsChain Follows := hchain.tail
        obtain ⟨vs, hvs, hgood⟩ := ih l.length (by rw [← hn, List.length_cons]; omega) hchain'
          (fun u hu => hvalid u (by simp [hu])) hlast' rfl
        refine ⟨(t, c.invalid) :: vs, ?_, fun v hv => ?_⟩
        · show (if !false && t.eof then [t, c.invalid] else [t]) ++ padded c (!false && !t.eof) l = _
          rw [heof, List.flatMap_cons, ← hvs]
          rfl
        · rcases List.mem_cons.mp hv with rfl | hv
          · exact .inl ⟨heof, rfl⟩
          · exact hgood v hv
      | false =>
        cases l with
        | nil =>
          have := hlast t rfl
          rw [heof] at this
          cases this
        | cons u l =>
          rw [List.isChain_cons_cons] at hchain
          obtain ⟨hsof, hhit⟩ := hchain.1 heof
          have hlast' : ∀ x, l.getLast? = some x → x.eof = true := by
            intro x hx
            refine hlast x ?_
            rw [List.getLast?_cons, List.getLast?_cons, hx]
            rfl
          have hchain' : l.IsChain Follows := hchain.2.tail
          obtain ⟨vs, hvs, hgood⟩ := ih l.length (by rw [← hn]; simp only [List.length_cons]; omega) hchain'
            (fun x hx => hvalid x (by simp [hx])) hlast' rfl
          refine ⟨(t, u) :: vs, ?_, fun v hv => ?_⟩
          · show (if !false && t.eof then [t, c.invalid] else [t]) ++
              ((if !(!false && !t.eof) && u.eof then [u, c.invalid] else [u]) ++
                padded c (!(!false && !t.eof) && !u.eof) l) = _
            rw [heof, List.flatMap_cons, ← hvs]
            rfl
          · rcases List.mem_cons.mp hv with rfl | hv
            · exact .inr ⟨heof, hsof, hhit, hvalid u (by simp)⟩
            · exact hgood v hv

/-- The bits of two halves. -/
lemma extractLsb'_halves {w : ℕ} (x y : BitVec w) :
    (x ++ y).extractLsb' w w = x ∧ (x ++ y).extractLsb' 0 w = y := by
  constructor
  · rw [BitVec.extractLsb'_append_eq_of_le (Nat.le_refl w), Nat.sub_self, BitVec.extractLsb'_eq_self]
  · rw [BitVec.extractLsb'_append_eq_of_add_le (by omega), BitVec.extractLsb'_eq_self]

/-- A pair that is made long and cut again is the same but for what has no bytes. -/
lemma narrow_combine {v : TLPData8 × TLPData8} (h : GoodPair c v) :
    narrow (combine v) = (halves v).filter TLPData8.isValid := by
  obtain ⟨hbe₁, hbe₂⟩ := extractLsb'_halves v.1.be v.2.be
  obtain ⟨hdata₁, hdata₂⟩ := extractLsb'_halves v.1.data v.2.data
  have hsplit : split (combine v) =
      (⟨v.1.sof, if v.2.be = 0 then v.2.eof else false, v.1.hit, v.1.be, v.1.data⟩,
        ⟨false, v.2.eof, v.1.hit, v.2.be, v.2.data⟩) := by
    unfold split combine
    simp only [hbe₁, hbe₂, hdata₁, hdata₂]
  unfold narrow
  rw [hsplit]
  rcases h with ⟨heof, hpad⟩ | ⟨heof, hsof, hhit, hvalid⟩
  · have hbe : v.2.be = 0 := by
      rw [hpad]
      rfl
    have heof₂ : v.2.eof = true := by
      rw [hpad]
      rfl
    have hfirst : (⟨v.1.sof, if v.2.be = 0 then v.2.eof else false, v.1.hit, v.1.be, v.1.data⟩ : TLPData8) = v.1 := by
      rw [if_pos hbe, heof₂, ← heof]
    rw [hfirst]
    simp [halves, TLPData8.isValid, hbe, List.filter_cons]
  · have hbe : v.2.be ≠ 0 := of_decide_eq_true hvalid
    have hfirst : (⟨v.1.sof, if v.2.be = 0 then v.2.eof else false, v.1.hit, v.1.be, v.1.data⟩ : TLPData8) = v.1 := by
      rw [if_neg hbe, ← heof]
    have hsecond : (⟨false, v.2.eof, v.1.hit, v.2.be, v.2.data⟩ : TLPData8) = v.2 := by
      rw [← hsof, ← hhit]
    rw [hfirst, hsecond]

/-! ## Long beats cut and put together again -/

/-- The first half has bytes, and the second has bytes unless the beat ends a packet. -/
structure IsLongBeat (t : TLPData) : Prop where
  upper : t.be.extractLsb' 8 8 ≠ 0
  lower : t.be.extractLsb' 0 8 = 0 → t.eof = true

/-- The beats differ in bytes that do not count only. -/
structure SameBytes (t u : TLPData) : Prop where
  sof : t.sof = u.sof
  eof : t.eof = u.eof
  hit : t.hit = u.hit
  be : t.be = u.be
  bytes : ∀ k < 16, u.be.getLsbD k = true → t.data.extractLsb' (8 * k) 8 = u.data.extractLsb' (8 * k) 8

/-- The halves that a long beat becomes. -/
def halvesOf (c : GearboxConfig) (t : TLPData) : TLPData8 × TLPData8 :=
  if (split t).2.isValid then split t else ((split t).1, c.invalid)

/-- What long beats become when they are cut and their halves are put together. -/
lemma padded_narrow {ts : List TLPData} (h : ∀ t ∈ ts, IsLongBeat t) :
    padded c false (ts.flatMap narrow) = ts.flatMap fun t => halves (halvesOf c t) := by
  induction ts with
  | nil => rfl
  | cons t ts ih =>
    have ht := h t (by simp)
    have hfirst : (split t).1.isValid = true := decide_eq_true ht.upper
    rw [List.flatMap_cons, List.flatMap_cons, ← ih fun u hu => h u (by simp [hu])]
    unfold halvesOf narrow halves
    cases hsecond : (split t).2.isValid with
    | true =>
      have heof : (split t).1.eof = false := if_neg (of_decide_eq_true hsecond)
      simp [hfirst, hsecond, padded, heof]
    | false =>
      have hlow : t.be.extractLsb' 0 8 = 0 := by simpa [TLPData8.isValid, split] using hsecond
      have heof : (split t).1.eof = true := (if_pos hlow).trans (ht.lower hlow)
      simp [hfirst, hsecond, padded, heof]

/-- The two halves of some bits. -/
lemma append_extractLsb' {w : ℕ} (x : BitVec (w + w)) : x.extractLsb' w w ++ x.extractLsb' 0 w = x := by
  ext i hi
  rw [BitVec.getElem_append]
  split
  · rw [BitVec.getElem_extractLsb', Nat.zero_add, BitVec.getLsbD_eq_getElem]
  · rw [BitVec.getElem_extractLsb', Nat.add_sub_cancel' (by omega), BitVec.getLsbD_eq_getElem]

/-- The halves put together are the beat. -/
lemma sameBytes_combine {t : TLPData} (h : IsLongBeat t) : SameBytes (combine (halvesOf c t)) t := by
  have hbe : t.be.extractLsb' 8 8 ++ t.be.extractLsb' 0 8 = t.be := append_extractLsb' (w := 8) t.be
  have hdata : t.data.extractLsb' 64 64 ++ t.data.extractLsb' 0 64 = t.data := append_extractLsb' (w := 64) t.data
  unfold halvesOf
  cases hsecond : (split t).2.isValid with
  | true =>
    rw [if_pos rfl]
    exact ⟨rfl, rfl, rfl, hbe, fun k _ _ => congrArg (BitVec.extractLsb' (8 * k) 8) hdata⟩
  | false =>
    have hlow : t.be.extractLsb' 0 8 = 0 := by simpa [TLPData8.isValid, split] using hsecond
    rw [if_neg (by simp)]
    refine ⟨rfl, (h.lower hlow).symm, rfl, ?_, fun k hk henabled => ?_⟩
    · rw [← hbe, hlow]
      rfl
    · -- a byte that counts is in the first half
      have hge : 8 ≤ k := by
        by_contra hlt
        have hbit : (t.be.extractLsb' 0 8).getLsbD k = true := by
          rw [BitVec.getLsbD_extractLsb', Nat.zero_add, henabled]
          simpa using hlt
        rw [hlow] at hbit
        simp at hbit
      show (t.data.extractLsb' 64 64 ++ c.invalid.data).extractLsb' (8 * k) 8 = _
      rw [BitVec.extractLsb'_append_eq_of_le (by omega), extractLsb'_extractLsb' _ (by omega)]
      congr 1
      omega

/-! ## Steps -/

namespace PcieGearbox

variable {s : PcieGearbox c}

/-- The places in use: the short beats that come, if a beat without bytes is due, the halves on the way in and on the
way out, and the short beats that leave. -/
structure Uses (s : PcieGearbox c) (inFifo invalid rx tx out : ℕ) : Prop where
  inFifo : s.inFifo.items.length = inFifo
  invalid : s.rSendInvalid.toNat = invalid
  rx : s.fifoRxData.items.length = rx
  tx : s.fifoTxData.items.length = tx
  out : s.outFifo.items.length = out

variable {i v r t o : ℕ}

/-- A short beat can leave. -/
lemma Uses.tlpRequest (h : s.Uses i v r t (o + 1)) :
    ∃ s' b, (pcieGearbox c).step s .tlpRequest = some (s', [.tlpRequest b]) ∧ s'.Uses i v r t o := by
  cases hout : s.outFifo.items with
  | nil =>
    have := h.out
    rw [hout, List.length_nil] at this
    omega
  | cons b l =>
    obtain ⟨q, hq, hitems⟩ := Fifo.exists_deq hout
    refine ⟨{ s with outFifo := q }, b, ?_, { h with out := ?_ }⟩
    · simp only [pcieGearbox, PcieGearbox.tlpRequest, hq, bind, pure, Option.bind_some]
    · have := h.out
      rw [hout, List.length_cons] at this
      rw [hitems]
      omega

/-- A half can go to the endpoint or be dropped. -/
lemma Uses.processOutgoing (h : s.Uses i v r (t + 1) 0) :
    ∃ s' o, (pcieGearbox c).step s .processOutgoingPackets = some (s', []) ∧ s'.Uses i v r t o ∧ o ≤ 1 := by
  have hout : s.outFifo.items = [] := List.eq_nil_of_length_eq_zero h.out
  cases htx : s.fifoTxData.items with
  | nil =>
    have := h.tx
    rw [htx, List.length_nil] at this
    omega
  | cons b l =>
    obtain ⟨q, hq, hitems⟩ := Fifo.exists_deq htx
    obtain ⟨q', hq'⟩ := Fifo.exists_enqIf (q := s.outFifo) (b := decide (b.be ≠ 0)) (by rw [hout]; simp) b
    refine ⟨{ s with fifoTxData := q, outFifo := q' }, q'.items.length, ?_, { h with tx := ?_, out := rfl }, ?_⟩
    · simp only [pcieGearbox, processOutgoingPackets, hq, hq', bind, pure, Option.bind_some]
    · have := h.tx
      rw [htx, List.length_cons] at this
      rw [hitems]
      omega
    · obtain ⟨-, hout'⟩ := Fifo.enqIf_eq_some.mp hq'
      rw [hout', hout, List.nil_append]
      split <;> simp

/-- A long beat can come. -/
lemma Uses.pciRequest (h : s.Uses i v r 0 o) (b : TLPData) :
    ∃ s', (pcieGearbox c).step s (.pciRequest b) = some (s', [.pciRequest b]) ∧ s'.Uses i v r 2 o := by
  have htx : s.fifoTxData.items = [] := List.eq_nil_of_length_eq_zero h.tx
  have henq : ∃ q, s.fifoTxData.enqN [(split b).1, (split b).2] = some q := by
    unfold Fifo.enqN
    rw [dif_pos (by rw [htx]; exact c.two_le_txSize)]
    exact ⟨_, rfl⟩
  obtain ⟨q, hq⟩ := henq
  obtain ⟨-, hitems⟩ := Fifo.enqN_eq_some.mp hq
  refine ⟨{ s with fifoTxData := q }, ?_, { h with tx := ?_ }⟩
  · simp only [pcieGearbox, PcieGearbox.pciRequest, hq, bind, pure, Option.bind_some]
  · rw [hitems, htx]
    rfl

/-- A long beat can be taken. -/
lemma Uses.pciResponse (h : s.Uses i v (r + 2) t o) :
    ∃ s' b, (pcieGearbox c).step s .pciResponse = some (s', [.pciResponse b]) ∧ s'.Uses i v r t o := by
  have hlen := h.rx
  cases hrx : s.fifoRxData.items with
  | nil =>
    rw [hrx, List.length_nil] at hlen
    omega
  | cons v₀ l =>
    cases l with
    | nil =>
      rw [hrx, List.length_singleton] at hlen
      omega
    | cons v₁ l =>
      obtain ⟨q, hq, hitems⟩ := Fifo.exists_deq hrx
      obtain ⟨q', hq', hitems'⟩ := Fifo.exists_deq hitems
      refine ⟨{ s with fifoRxData := q' }, combine (v₀, v₁), ?_, { h with rx := ?_ }⟩
      · simp only [pcieGearbox, PcieGearbox.pciResponse, hq, hq', bind, pure, Option.bind_some]
      · rw [hrx, List.length_cons, List.length_cons] at hlen
        rw [hitems']
        omega

/-- The beat without bytes can be sent. -/
lemma Uses.sendInvalid (h : s.Uses i 1 r t o) (hr : r ≤ 1) :
    ∃ s', (pcieGearbox c).step s .sendInvalidPackets1 = some (s', []) ∧ s'.Uses i 0 (r + 1) t o := by
  have hinvalid : s.rSendInvalid = true := by
    have := h.invalid
    cases hs : s.rSendInvalid with
    | true => rfl
    | false =>
      rw [hs] at this
      cases this
  have hroom : s.fifoRxData.items.length < c.rxSize := by
    have := h.rx
    have := c.two_le_rxSize
    omega
  obtain ⟨q, hq, hitems⟩ := Fifo.exists_enq hroom c.invalid
  refine ⟨{ s with fifoRxData := q, rOddBeat := !s.rOddBeat, rSendInvalid := false }, ?_,
    { h with invalid := rfl, rx := ?_ }⟩
  · simp only [pcieGearbox, sendInvalidPackets1, hinvalid, if_true, hq, bind, pure, Option.bind_some]
  · rw [hitems, List.length_append, h.rx, List.length_singleton]

/-- A short beat can become a half. -/
lemma Uses.processIncoming (h : s.Uses (i + 1) 0 r t o) (hr : r ≤ 1) :
    ∃ s' v, (pcieGearbox c).step s .processIncomingPackets1 = some (s', []) ∧ s'.Uses i v (r + 1) t o ∧ v ≤ 1 := by
  have hinvalid : s.rSendInvalid = false := by
    have := h.invalid
    cases hs : s.rSendInvalid with
    | false => rfl
    | true =>
      rw [hs] at this
      cases this
  have hroom : s.fifoRxData.items.length < c.rxSize := by
    have := h.rx
    have := c.two_le_rxSize
    omega
  cases hin : s.inFifo.items with
  | nil =>
    have := h.inFifo
    rw [hin, List.length_nil] at this
    omega
  | cons b l =>
    obtain ⟨q, hq, hitems⟩ := Fifo.exists_deq hin
    obtain ⟨q', hq', hitems'⟩ := Fifo.exists_enq hroom b
    refine ⟨{ s with
      inFifo := q, fifoRxData := q', rOddBeat := !s.rOddBeat, rSendInvalid := !s.rOddBeat && b.eof },
      (!s.rOddBeat && b.eof).toNat, ?_, { h with inFifo := ?_, invalid := rfl, rx := ?_ }, Bool.toNat_le _⟩
    · simp only [pcieGearbox, processIncomingPackets1, hinvalid, Bool.false_eq_true, if_false, hq, hq', bind, pure,
        Option.bind_some]
    · have := h.inFifo
      rw [hin, List.length_cons] at this
      rw [hitems]
      omega
    · rw [hitems', List.length_append, h.rx, List.length_singleton]

/-- A short beat can come. -/
lemma Uses.tlpResponse (h : s.Uses 0 v r t o) (b : TLPData8) :
    ∃ s', (pcieGearbox c).step s (.tlpResponse b) = some (s', [.tlpResponse b]) ∧ s'.Uses 1 v r t o := by
  have hin : s.inFifo.items = [] := List.eq_nil_of_length_eq_zero h.inFifo
  obtain ⟨q, hq, hitems⟩ := Fifo.exists_enq (q := s.inFifo) (by rw [hin]; decide) b
  refine ⟨{ s with inFifo := q }, ?_, { h with inFifo := ?_ }⟩
  · simp only [pcieGearbox, PcieGearbox.tlpResponse, hq, bind, pure, Option.bind_some]
  · rw [hitems, hin]
    rfl

/-- The places in use. -/
lemma uses (s : PcieGearbox c) : s.Uses s.inFifo.items.length s.rSendInvalid.toNat s.fifoRxData.items.length
    s.fifoTxData.items.length s.outFifo.items.length := ⟨rfl, rfl, rfl, rfl, rfl⟩

end PcieGearbox

/-! ## The endpoint gets back what it has sent -/

section Receive

variable {tr : List Event} {s : PcieGearbox c} {l done : List TLPData8} {vs : List (TLPData8 × TLPData8)}
  {ps : List (List TLPData8)}

/-- The pairs that have gone to the design are those of the packets. -/
lemma Widened.goodPairs (h : Widened tr s l vs) (hps : ∀ p ∈ ps, IsShortPacket p) (hin : shortIn tr <+: ps.flatten) :
    ∃ ws, vs <+: ws ∧ padded c false ps.flatten = ws.flatMap halves ∧ ∀ w ∈ ws, GoodPair c w := by
  obtain ⟨ws, hws, hgood⟩ := exists_goodPairs (c := c) (isChain_flatten hps) (fun t ht => isValid_of_mem hps ht)
    (fun t ht => eof_of_getLast? hps ht)
  have hl : l <+: ps.flatten := (h.taken ▸ List.prefix_append _ _ : l <+: shortIn tr).trans hin
  have hpre : vs.flatMap halves <+: ws.flatMap halves := by
    rw [← hws]
    exact h.pairs_prefix.trans (padded_mono hl)
  exact ⟨ws, prefix_of_halves hpre, hws, hgood⟩

/-- The halves with bytes of pairs. -/
lemma flatMap_narrow (h : ∀ v ∈ vs, GoodPair c v) :
    (vs.map combine).flatMap narrow = (vs.flatMap halves).filter TLPData8.isValid := by
  rw [List.flatMap_map, List.filter_flatMap]
  exact List.flatMap_congr fun v hv => narrow_combine (h v hv)

/-- What goes to the endpoint has come from it. -/
lemma Narrowed.prefix_taken (hn : Narrowed tr s done) (h : Widened tr s l vs) (hps : ∀ p ∈ ps, IsShortPacket p)
    (hin : shortIn tr <+: ps.flatten) (hloop : longIn tr <+: longOut tr) :
    shortOut tr ++ s.outFifo.items <+: l := by
  obtain ⟨ws, hvs, -, hgood⟩ := h.goodPairs hps hin
  have hl : l <+: ps.flatten := (h.taken ▸ List.prefix_append _ _ : l <+: shortIn tr).trans hin
  calc shortOut tr ++ s.outFifo.items
      <+: (longIn tr).flatMap narrow := hn.out_prefix
    _ <+: (longOut tr).flatMap narrow := hloop.flatMap narrow
    _ = (vs.flatMap halves).filter TLPData8.isValid := by
        rw [h.out, flatMap_narrow fun v hv => hgood v (hvs.subset hv)]
    _ <+: (padded c false l).filter TLPData8.isValid := h.pairs_prefix.filter _
    _ = l := filter_padded (fun t ht => isValid_of_mem hps (hl.subset ht)) false

/-- The steps that are still needed if `n` short beats come and every long beat comes back. -/
def receiveLoad (n : ℕ) (tr : List Event) (s : PcieGearbox c) : ℕ :=
  9 * (n - (shortIn tr).length) + 8 * s.inFifo.items.length + 4 * s.rSendInvalid.toNat +
    3 * s.fifoRxData.items.length + 5 * ((longOut tr).length - (longIn tr).length) +
    2 * s.fifoTxData.items.length + s.outFifo.items.length

/-- All beats have come, gone round and left. -/
def IsThrough (F : List TLPData8) (tr : List Event) (s : PcieGearbox c) : Prop :=
  shortIn tr = F ∧ longIn tr = longOut tr ∧ s.Uses 0 0 s.fifoRxData.items.length 0 0 ∧
    s.fifoRxData.items.length ≤ 1

/-- If not all beats are through, some step brings one on. -/
lemma receive_progress {F : List TLPData8} (hin : shortIn tr <+: F) (hloop : longIn tr <+: longOut tr) :
    IsThrough F tr s ∨ ∃ a s' es, (pcieGearbox c).step s a = some (s', es) ∧ shortIn (tr ++ es) <+: F ∧
      longIn (tr ++ es) <+: longOut (tr ++ es) ∧ receiveLoad F.length (tr ++ es) s' < receiveLoad F.length tr s := by
  obtain ⟨i, v, r, t, o, hu⟩ : ∃ i v r t o, s.Uses i v r t o := ⟨_, _, _, _, _, s.uses⟩
  have hi := hu.inFifo
  have hv := hu.invalid
  have hr := hu.rx
  have ht := hu.tx
  have ho := hu.out
  cases o with
  | succ o =>
    obtain ⟨s', b, hs, hu'⟩ := hu.tlpRequest
    refine .inr ⟨_, s', _, hs, by simpa using hin, by simpa using hloop, ?_⟩
    simp only [receiveLoad, shortIn_append, longOut_append, longIn_append, shortIn_singleton, longOut_singleton,
      longIn_singleton, List.append_nil, hu'.inFifo, hu'.invalid, hu'.rx, hu'.tx, hu'.out]
    omega
  | zero =>
    cases t with
    | succ t =>
      obtain ⟨s', o, hs, hu', hle⟩ := hu.processOutgoing
      refine .inr ⟨_, s', [], hs, by simpa using hin, by simpa using hloop, ?_⟩
      simp only [receiveLoad, List.append_nil, hu'.inFifo, hu'.invalid, hu'.rx, hu'.tx, hu'.out]
      omega
    | zero =>
      obtain ⟨k, hk⟩ := hloop
      cases k with
      | cons b k =>
        obtain ⟨s', hs, hu'⟩ := hu.pciRequest b
        have hlen : (longOut tr).length = (longIn tr).length + (k.length + 1) := by
          rw [← hk, List.length_append, List.length_cons]
        refine .inr ⟨_, s', _, hs, by simpa using hin, ⟨k, by simpa using hk⟩, ?_⟩
        simp only [receiveLoad, shortIn_append, longOut_append, longIn_append, shortIn_singleton, longOut_singleton,
          longIn_singleton, List.append_nil, List.length_append, List.length_singleton, hu'.inFifo, hu'.invalid,
          hu'.rx, hu'.tx, hu'.out]
        omega
      | nil =>
        rw [List.append_nil] at hk
        by_cases hr₂ : 2 ≤ r
        · obtain ⟨r, rfl⟩ := Nat.exists_eq_add_of_le' hr₂
          obtain ⟨s', b, hs, hu'⟩ := hu.pciResponse
          refine .inr ⟨_, s', _, hs, by simpa using hin, ⟨[b], by simp [hk]⟩, ?_⟩
          simp only [receiveLoad, shortIn_append, longOut_append, longIn_append, shortIn_singleton,
            longOut_singleton, longIn_singleton, List.append_nil, List.length_append, List.length_singleton,
            hu'.inFifo, hu'.invalid, hu'.rx, hu'.tx, hu'.out]
          omega
        · have hr₁ : r ≤ 1 := by omega
          have hv₁ : v = 0 ∨ v = 1 := by
            have := Bool.toNat_le s.rSendInvalid
            omega
          rcases hv₁ with rfl | rfl
          · cases i with
            | succ i =>
              obtain ⟨s', v, hs, hu', hle⟩ := hu.processIncoming hr₁
              refine .inr ⟨_, s', [], hs, by simpa using hin, by simp [hk], ?_⟩
              simp only [receiveLoad, List.append_nil, hu'.inFifo, hu'.invalid, hu'.rx, hu'.tx, hu'.out]
              omega
            | zero =>
              obtain ⟨m, hm⟩ := hin
              cases m with
              | nil => exact .inl ⟨by simpa using hm, hk, { hu with rx := rfl }, by omega⟩
              | cons b m =>
                obtain ⟨s', hs, hu'⟩ := hu.tlpResponse b
                have hlen : F.length = (shortIn tr).length + (m.length + 1) := by
                  rw [← hm, List.length_append, List.length_cons]
                refine .inr ⟨_, s', _, hs, ⟨m, by simpa using hm⟩, by simp [hk], ?_⟩
                simp only [receiveLoad, shortIn_append, longOut_append, longIn_append, shortIn_singleton,
                  longOut_singleton, longIn_singleton, List.append_nil, List.length_append, List.length_singleton,
                  hu'.inFifo, hu'.invalid, hu'.rx, hu'.tx, hu'.out]
                omega
          · obtain ⟨s', hs, hu'⟩ := hu.sendInvalid hr₁
            refine .inr ⟨_, s', [], hs, by simpa using hin, by simp [hk], ?_⟩
            simp only [receiveLoad, List.append_nil, hu'.inFifo, hu'.invalid, hu'.rx, hu'.tx, hu'.out]
            omega

/-- When all beats are through, the endpoint has got them all. -/
lemma shortOut_of_isThrough (h : Widened tr s l vs) (hn : Narrowed tr s done) (hps : ∀ p ∈ ps, IsShortPacket p)
    (hdone : IsThrough ps.flatten tr s) : shortOut tr = ps.flatten := by
  obtain ⟨hin, hloop, hu, hle⟩ := hdone
  obtain ⟨ws, hvs, hws, hgood⟩ := h.goodPairs hps (hin ▸ List.prefix_rfl)
  have hinNil : s.inFifo.items = [] := List.eq_nil_of_length_eq_zero hu.inFifo
  have htxNil : s.fifoTxData.items = [] := List.eq_nil_of_length_eq_zero hu.tx
  have houtNil : s.outFifo.items = [] := List.eq_nil_of_length_eq_zero hu.out
  have hl : l = ps.flatten := by rw [← hin, h.taken, hinNil, List.append_nil]
  have hinvalid : s.rSendInvalid = false := by
    cases hs : s.rSendInvalid with
    | false => rfl
    | true =>
      have := hu.invalid
      rw [hs] at this
      cases this
  -- the halves are pairs, so that none is left
  have hflat := h.flat
  rw [hinvalid, hl, hws] at hflat
  simp only [Bool.false_eq_true, if_false, List.append_nil] at hflat
  have heq : vs = ws := by
    refine hvs.eq_of_length ?_
    have hlen := congrArg List.length hflat
    rw [List.length_append, length_flatMap_halves, length_flatMap_halves] at hlen
    omega
  have hout := hn.out
  have htaken := hn.taken
  rw [houtNil, List.append_nil] at hout
  rw [htxNil, List.append_nil] at htaken
  rw [hout, ← htaken, hloop, h.out, heq, List.filter_flatMap]
  show (ws.map combine).flatMap narrow = _
  rw [flatMap_narrow hgood, ← hws, filter_padded (fun t ht => isValid_of_mem hps ht)]

end Receive

/-- **Short beats come back as they were.** Let the endpoint send the beats of packets, and let the design send
back the long beats it gets. What goes to the endpoint are the beats that have come from it. Between packets
`rOddBeat` is false, so that every packet begins with the first half of a long beat. And all beats can come back.

**Proof sketch.** The halves of packets are pairs of two beats of a packet, or of the last one with a beat that has no
bytes (`exists_goodPairs`), and a pair that is combined and split is the same but for that beat. -/
lemma receive_transmit {tr : List Event} {s : PcieGearbox c} (h : (pcieGearbox c).Reaches (.reset c) tr s)
    {ps : List (List TLPData8)} (hps : ∀ p ∈ ps, IsShortPacket p) (hin : shortIn tr <+: ps.flatten)
    (hloop : longIn tr <+: longOut tr) :
    shortOut tr ++ s.outFifo.items <+: shortIn tr ∧
    (∀ k, shortIn tr = (ps.take k).flatten ++ s.inFifo.items → s.rSendInvalid = false → s.rOddBeat = false) ∧
    ∃ tr' s', (pcieGearbox c).Reaches s tr' s' ∧ shortIn (tr ++ tr') = ps.flatten ∧
      longIn (tr ++ tr') = longOut (tr ++ tr') ∧ shortOut (tr ++ tr') = ps.flatten := by
  obtain ⟨l, vs, hw⟩ := exists_widened h
  obtain ⟨done, hn⟩ := exists_narrowed h
  refine ⟨?_, fun k hk hinvalid => ?_, ?_⟩
  · have hl : l <+: shortIn tr := ⟨_, hw.taken.symm⟩
    exact (hn.prefix_taken hw hps hin hloop).trans hl
  · have hl : l = (ps.take k).flatten := List.append_cancel_right (hw.taken.symm.trans hk)
    have hodd := hw.odd
    rw [hinvalid, hl, oddAfter_flatten fun p hp => hps p (List.mem_of_mem_take hp)] at hodd
    simpa using hodd
  · have hprogress (t : List Event) (s : PcieGearbox c)
        (hI : ((∃ l vs, Widened t s l vs) ∧ ∃ done, Narrowed t s done) ∧ shortIn t <+: ps.flatten ∧
          longIn t <+: longOut t) :
        IsThrough ps.flatten t s ∨ ∃ a s' es, (pcieGearbox c).step s a = some (s', es) ∧
          (((∃ l vs, Widened (t ++ es) s' l vs) ∧ ∃ done, Narrowed (t ++ es) s' done) ∧
            shortIn (t ++ es) <+: ps.flatten ∧ longIn (t ++ es) <+: longOut (t ++ es)) ∧
          receiveLoad ps.flatten.length (t ++ es) s' < receiveLoad ps.flatten.length t s := by
      obtain ⟨⟨⟨l, vs, hw⟩, done, hn⟩, hin, hloop⟩ := hI
      refine (receive_progress hin hloop).imp_right ?_
      rintro ⟨a, s', es, hs, hin', hloop', hlt⟩
      exact ⟨a, s', es, hs, ⟨⟨hw.step hs, hn.step hs⟩, hin', hloop'⟩, hlt⟩
    obtain ⟨tr', s', hreach, ⟨⟨⟨l', vs', hw'⟩, done', hn'⟩, -⟩, hdone⟩ := RuleSystem.exists_reaches
      (I := fun t (s : PcieGearbox c) => ((∃ l vs, Widened t s l vs) ∧ ∃ done, Narrowed t s done) ∧
        shortIn t <+: ps.flatten ∧ longIn t <+: longOut t)
      (fun t (s : PcieGearbox c) => receiveLoad ps.flatten.length t s) hprogress
      ⟨⟨⟨l, vs, hw⟩, done, hn⟩, hin, hloop⟩
    exact ⟨tr', s', hreach, hdone.1, hdone.2.1, shortOut_of_isThrough hw' hn' hps hdone⟩

/-! ## The design gets back what it has sent -/

section Transmit

variable {tr : List Event} {s : PcieGearbox c} {l done : List TLPData8} {vs : List (TLPData8 × TLPData8)}

/-- The pairs that have gone to the design are the halves of the long beats it has sent. -/
lemma Widened.prefix_halvesOf (h : Widened tr s l vs) (hn : Narrowed tr s done)
    (hin : ∀ t ∈ longIn tr, IsLongBeat t) (hloop : shortIn tr <+: shortOut tr) :
    vs <+: (longIn tr).map (halvesOf c) := by
  have htaken : l <+: shortIn tr := ⟨_, h.taken.symm⟩
  have hl : l <+: (longIn tr).flatMap narrow :=
    (htaken.trans hloop).trans ((List.prefix_append _ _).trans hn.out_prefix)
  have hpre := h.pairs_prefix.trans (padded_mono hl)
  rw [padded_narrow hin, ← List.flatMap_map (halvesOf c) halves] at hpre
  exact prefix_of_halves hpre

/-- What has been put together from the first of the halves of long beats are the beats. -/
lemma forall₂_sameBytes {ts : List TLPData} (hts : ∀ t ∈ ts, IsLongBeat t) (h : vs <+: ts.map (halvesOf c)) :
    List.Forall₂ SameBytes (vs.map combine) (ts.take vs.length) := by
  obtain ⟨r, hr⟩ := h
  have hvs : vs = (ts.take vs.length).map (halvesOf c) := by
    have htake := congrArg (List.take vs.length) hr
    rwa [List.take_left, ← List.map_take] at htake
  have hmem : ∀ t ∈ ts.take vs.length, IsLongBeat t := fun t ht => hts t (List.mem_of_mem_take ht)
  rw [hvs, List.length_map, List.map_map]
  have hlen : (ts.take (ts.take vs.length).length) = ts.take vs.length := by
    rw [List.length_take, List.take_eq_take_iff]
    omega
  rw [hlen, List.forall₂_map_left_iff, List.forall₂_same]
  exact fun t ht => sameBytes_combine (hmem t ht)

/-- The steps that are still needed if every short beat comes back. -/
def transmitLoad (tr : List Event) (s : PcieGearbox c) : ℕ :=
  7 * s.fifoTxData.items.length + 6 * s.outFifo.items.length +
    5 * ((shortOut tr).length - (shortIn tr).length) + 4 * s.inFifo.items.length + 2 * s.rSendInvalid.toNat +
    s.fifoRxData.items.length

/-- All short beats have left, gone round and come. -/
def IsBack (tr : List Event) (s : PcieGearbox c) : Prop :=
  shortIn tr = shortOut tr ∧ s.Uses 0 0 s.fifoRxData.items.length 0 0 ∧ s.fifoRxData.items.length ≤ 1

/-- If not all short beats are back, some step brings one on. -/
lemma transmit_progress (hloop : shortIn tr <+: shortOut tr) :
    IsBack tr s ∨ ∃ a s' es, (pcieGearbox c).step s a = some (s', es) ∧ longIn es = [] ∧
      shortIn (tr ++ es) <+: shortOut (tr ++ es) ∧ transmitLoad (tr ++ es) s' < transmitLoad tr s := by
  obtain ⟨i, v, r, t, o, hu⟩ : ∃ i v r t o, s.Uses i v r t o := ⟨_, _, _, _, _, s.uses⟩
  have hi := hu.inFifo
  have hv := hu.invalid
  have hr := hu.rx
  have ht := hu.tx
  have ho := hu.out
  by_cases hr₂ : 2 ≤ r
  · obtain ⟨r, rfl⟩ := Nat.exists_eq_add_of_le' hr₂
    obtain ⟨s', b, hs, hu'⟩ := hu.pciResponse
    refine .inr ⟨_, s', _, hs, rfl, by simpa using hloop, ?_⟩
    simp only [transmitLoad, shortIn_append, shortOut_append, shortIn_singleton, shortOut_singleton,
      List.append_nil, hu'.inFifo, hu'.invalid, hu'.rx, hu'.tx, hu'.out]
    omega
  · have hr₁ : r ≤ 1 := by omega
    have hv₁ : v = 0 ∨ v = 1 := by
      have := Bool.toNat_le s.rSendInvalid
      omega
    rcases hv₁ with rfl | rfl
    · cases i with
      | succ i =>
        obtain ⟨s', v, hs, hu', hle⟩ := hu.processIncoming hr₁
        refine .inr ⟨_, s', [], hs, rfl, by simpa using hloop, ?_⟩
        simp only [transmitLoad, List.append_nil, hu'.inFifo, hu'.invalid, hu'.rx, hu'.tx, hu'.out]
        omega
      | zero =>
        obtain ⟨k, hk⟩ := hloop
        cases k with
        | cons b k =>
          obtain ⟨s', hs, hu'⟩ := hu.tlpResponse b
          have hlen : (shortOut tr).length = (shortIn tr).length + (k.length + 1) := by
            rw [← hk, List.length_append, List.length_cons]
          refine .inr ⟨_, s', _, hs, rfl, ⟨k, by simpa using hk⟩, ?_⟩
          simp only [transmitLoad, shortIn_append, shortOut_append, shortIn_singleton, shortOut_singleton,
            List.append_nil, List.length_append, List.length_singleton, hu'.inFifo, hu'.invalid, hu'.rx, hu'.tx,
            hu'.out]
          omega
        | nil =>
          rw [List.append_nil] at hk
          cases o with
          | succ o =>
            obtain ⟨s', b, hs, hu'⟩ := hu.tlpRequest
            refine .inr ⟨_, s', _, hs, rfl, ⟨[b], by simp [hk]⟩, ?_⟩
            simp only [transmitLoad, shortIn_append, shortOut_append, shortIn_singleton, shortOut_singleton,
              List.append_nil, List.length_append, List.length_singleton, hu'.inFifo, hu'.invalid, hu'.rx,
              hu'.tx, hu'.out]
            omega
          | zero =>
            cases t with
            | succ t =>
              obtain ⟨s', o, hs, hu', hle⟩ := hu.processOutgoing
              refine .inr ⟨_, s', [], hs, rfl, by simp [hk], ?_⟩
              simp only [transmitLoad, List.append_nil, hu'.inFifo, hu'.invalid, hu'.rx, hu'.tx, hu'.out]
              omega
            | zero => exact .inl ⟨hk, { hu with rx := rfl }, by omega⟩
    · obtain ⟨s', hs, hu'⟩ := hu.sendInvalid hr₁
      refine .inr ⟨_, s', [], hs, rfl, by simpa using hloop, ?_⟩
      simp only [transmitLoad, List.append_nil, hu'.inFifo, hu'.invalid, hu'.rx, hu'.tx, hu'.out]
      omega

/-- When all short beats are back, so are the long ones. -/
lemma longOut_of_isBack (h : Widened tr s l vs) (hn : Narrowed tr s done) (hin : ∀ t ∈ longIn tr, IsLongBeat t)
    (hback : IsBack tr s) : vs = (longIn tr).map (halvesOf c) := by
  obtain ⟨hloop, hu, hle⟩ := hback
  have hpre := h.prefix_halvesOf hn hin (hloop ▸ List.prefix_rfl)
  refine hpre.eq_of_length ?_
  have hinNil : s.inFifo.items = [] := List.eq_nil_of_length_eq_zero hu.inFifo
  have htxNil : s.fifoTxData.items = [] := List.eq_nil_of_length_eq_zero hu.tx
  have houtNil : s.outFifo.items = [] := List.eq_nil_of_length_eq_zero hu.out
  have hinvalid : s.rSendInvalid = false := by
    cases hs : s.rSendInvalid with
    | false => rfl
    | true =>
      have := hu.invalid
      rw [hs] at this
      cases this
  have hl : l = (longIn tr).flatMap narrow := by
    have htaken := h.taken
    have hdone := hn.taken
    have hout := hn.out
    rw [hinNil, List.append_nil, hloop] at htaken
    rw [htxNil, List.append_nil] at hdone
    rw [houtNil, List.append_nil, ← hdone, List.filter_flatMap] at hout
    rw [← htaken, hout]
    rfl
  have hflat := h.flat
  rw [hinvalid, hl, padded_narrow hin, ← List.flatMap_map (halvesOf c) halves] at hflat
  simp only [Bool.false_eq_true, if_false, List.append_nil] at hflat
  have hlen := congrArg List.length hflat
  rw [List.length_append, length_flatMap_halves, length_flatMap_halves] at hlen
  omega

end Transmit

/-- **Long beats come back as they were.** Let the design send beats whose second half has bytes unless they end a
packet, and let the endpoint send back the short beats it gets. What goes to the design are the beats that have come
from it, but for bytes that do not count. And all beats can come back.

**Proof sketch.** A beat whose second half has no bytes gives one short beat, which has its `eof` and is therefore
followed by one without bytes on the way back (`padded_narrow`). -/
lemma transmit_receive {tr : List Event} {s : PcieGearbox c} (h : (pcieGearbox c).Reaches (.reset c) tr s)
    (hin : ∀ t ∈ longIn tr, IsLongBeat t) (hloop : shortIn tr <+: shortOut tr) :
    List.Forall₂ SameBytes (longOut tr) ((longIn tr).take (longOut tr).length) ∧
    ∃ tr' s', (pcieGearbox c).Reaches s tr' s' ∧ longIn (tr ++ tr') = longIn tr ∧
      shortIn (tr ++ tr') = shortOut (tr ++ tr') ∧ List.Forall₂ SameBytes (longOut (tr ++ tr')) (longIn tr) := by
  obtain ⟨l, vs, hw⟩ := exists_widened h
  obtain ⟨done, hn⟩ := exists_narrowed h
  constructor
  · rw [hw.out, List.length_map]
    exact forall₂_sameBytes hin (hw.prefix_halvesOf hn hin hloop)
  · have hdrain := RuleSystem.exists_drained (M := pcieGearbox c)
      (I := fun t s => ((∃ l vs, Widened t s l vs) ∧ ∃ done, Narrowed t s done) ∧ shortIn t <+: shortOut t) (E := IsBack)
      longIn transmitLoad ⟨⟨⟨l, vs, hw⟩, done, hn⟩, hloop⟩ ?_
    · obtain ⟨tr', s', hreach, ⟨⟨⟨l', vs', hw'⟩, done', hn'⟩, -⟩, hlong, hback⟩ := hdrain
      have hin' : ∀ t ∈ longIn (tr ++ tr'), IsLongBeat t := by rwa [hlong]
      have hvs := longOut_of_isBack hw' hn' hin' hback
      refine ⟨tr', s', hreach, hlong, hback.1, ?_⟩
      rw [hw'.out, hvs, hlong, List.map_map, List.forall₂_map_left_iff, List.forall₂_same]
      exact fun t ht => sameBytes_combine (hin t ht)
    · rintro t s ⟨⟨⟨l, vs, hw⟩, done, hn⟩, hloop⟩ - hbusy
      obtain ⟨a, s', es, hs, hes, hloop', hlt⟩ := (transmit_progress hloop).resolve_left hbusy
      refine ⟨a, s', es, hs, ⟨⟨hw.step hs, hn.step hs⟩, hloop'⟩, ?_, hlt⟩
      rw [longIn_append, hes, List.append_nil]

/-- **Nothing is lost in the gearbox.** Packets of short beats that go through the receive path and then the transmit
path are the same packets, and each begins with the first half of a long beat; long beats that go through the transmit
path and then the receive path are the same but for bytes that do not count. -/
theorem gearbox_lossless {tr : List Event} {s : PcieGearbox c} (h : (pcieGearbox c).Reaches (.reset c) tr s) :
    (∀ ps : List (List TLPData8), (∀ p ∈ ps, IsShortPacket p) → shortIn tr <+: ps.flatten →
      longIn tr <+: longOut tr →
      shortOut tr ++ s.outFifo.items <+: shortIn tr ∧
      (∀ k, shortIn tr = (ps.take k).flatten ++ s.inFifo.items → s.rSendInvalid = false → s.rOddBeat = false) ∧
      ∃ tr' s', (pcieGearbox c).Reaches s tr' s' ∧ shortIn (tr ++ tr') = ps.flatten ∧
        longIn (tr ++ tr') = longOut (tr ++ tr') ∧ shortOut (tr ++ tr') = ps.flatten) ∧
    ((∀ t ∈ longIn tr, IsLongBeat t) → shortIn tr <+: shortOut tr →
      List.Forall₂ SameBytes (longOut tr) ((longIn tr).take (longOut tr).length) ∧
      ∃ tr' s', (pcieGearbox c).Reaches s tr' s' ∧ longIn (tr ++ tr') = longIn tr ∧
        shortIn (tr ++ tr') = shortOut (tr ++ tr') ∧ List.Forall₂ SameBytes (longOut (tr ++ tr')) (longIn tr)) :=
  ⟨fun _ hps hin hloop => receive_transmit h hps hin hloop, fun hin hloop => transmit_receive h hin hloop⟩

/-- Gearboxes of two places. -/
def smallGearbox : GearboxConfig := ⟨2, 2, Nat.le_refl 2, Nat.le_refl 2, ⟨false, false, 0, 0, 0⟩⟩

/-- A packet of three short beats. -/
def threeShortBeats : List TLPData8 :=
  [⟨true, false, 4, 0xff, 0x1111111122222222⟩, ⟨false, false, 4, 0xff, 0x3333333344444444⟩,
    ⟨false, true, 4, 0xf0, 0x5555555500000000⟩]

/-- The three beats come, and the first two have gone round. -/
def threeAround :=
  (pcieGearbox smallGearbox).run (.reset smallGearbox)
    [.tlpResponse threeShortBeats[0], .processIncomingPackets1, .tlpResponse threeShortBeats[1],
      .processIncomingPackets1, .pciResponse, .tlpResponse threeShortBeats[2], .processIncomingPackets1,
      .pciRequest (combine (threeShortBeats[0], threeShortBeats[1])), .sendInvalidPackets1, .pciResponse,
      .processOutgoingPackets, .tlpRequest, .processOutgoingPackets]

/-- A long beat with one half, which goes round and comes back. -/
def oneLongBeat : TLPData := ⟨false, true, 4, 0xf000, 0x66666666777777778888888899999999⟩

/-- The beat goes round. -/
def oneAround :=
  (pcieGearbox smallGearbox).run (.reset smallGearbox)
    [.pciRequest oneLongBeat, .processOutgoingPackets, .processOutgoingPackets, .tlpRequest,
      .tlpResponse ⟨false, true, 4, 0xf0, 0x6666666677777777⟩, .processIncomingPackets1, .sendInvalidPackets1,
      .pciResponse]

theorem gearbox_lossless_around :
    (shortOut threeAround.2 ++ threeAround.1.outFifo.items = threeShortBeats.take 2 ∧
      longOut oneAround.2 = [⟨false, true, 4, 0xf000, 0x66666666777777770000000000000000⟩]) ∧
    (shortOut threeAround.2 ++ threeAround.1.outFifo.items <+: shortIn threeAround.2 ∧
      (∀ k, shortIn threeAround.2 = ([threeShortBeats].take k).flatten ++ threeAround.1.inFifo.items →
        threeAround.1.rSendInvalid = false → threeAround.1.rOddBeat = false) ∧
      ∃ tr' s', (pcieGearbox smallGearbox).Reaches threeAround.1 tr' s' ∧
        shortIn (threeAround.2 ++ tr') = [threeShortBeats].flatten ∧
        longIn (threeAround.2 ++ tr') = longOut (threeAround.2 ++ tr') ∧
        shortOut (threeAround.2 ++ tr') = [threeShortBeats].flatten) ∧
    (List.Forall₂ SameBytes (longOut oneAround.2) ((longIn oneAround.2).take (longOut oneAround.2).length) ∧
      ∃ tr' s', (pcieGearbox smallGearbox).Reaches oneAround.1 tr' s' ∧
        longIn (oneAround.2 ++ tr') = longIn oneAround.2 ∧
        shortIn (oneAround.2 ++ tr') = shortOut (oneAround.2 ++ tr') ∧
        List.Forall₂ SameBytes (longOut (oneAround.2 ++ tr')) (longIn oneAround.2)) := by
  have hpacket : IsShortPacket threeShortBeats :=
    ⟨⟨_, _, rfl, rfl, by decide⟩, ⟨threeShortBeats.take 2, threeShortBeats[2], rfl, rfl, by decide⟩, by decide,
      by decide⟩
  have hlong : ∀ t ∈ longIn oneAround.2, IsLongBeat t := by
    have hin : longIn oneAround.2 = [oneLongBeat] := by decide +kernel
    rw [hin]
    intro t ht
    rw [List.mem_singleton.mp ht]
    exact ⟨by decide, fun _ => rfl⟩
  refine ⟨by decide +kernel, (gearbox_lossless (RuleSystem.reaches_run _ _)).1 [threeShortBeats] ?_
    (by decide +kernel) (by decide +kernel), (gearbox_lossless (RuleSystem.reaches_run _ _)).2 hlong
    (by decide +kernel)⟩
  intro p hp
  rwa [List.mem_singleton.mp hp]

end Xbsv
