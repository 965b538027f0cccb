import Xbsv.Pcie.WritePackets

set_option relaxedAutoImplicit false
set_option autoImplicit false

/-!
# Dense write packets

A write packet with a short header has room for a dword of data beside the header. The rule that sends the
header is written to wait for this dword, but the part of it that is meant for long headers sends a short one
in any case. As long as the rule does not fire on a short header before there are data, write packets are
dense: all their beats but the last are full, and the first carries the first dword of a short packet.

## Main definitions

* `Xbsv.SlaveConfig.DataFirst` — the rule does not fire on a short header before there are data.
* `Xbsv.Dense` — a packet with a short header and its data.

## Main results

* `Xbsv.dense_of_dataFirst` — every run of such steps.
-/

namespace Xbsv

open Rules MemSlaveEngine

variable {c : SlaveConfig}

/-- The write requests ask for data, and the rule `writeHeaderTlp` does not fire on a short header before
there are data. -/
def SlaveConfig.DataFirst (c : SlaveConfig) (s : MemSlaveEngine) : Action c → Prop
  | .writeReq req => 0 < (c.burstLen req).toNat
  | .writeHeaderTlp => ∀ tlp ∈ s.writeSide.tlpWriteHeaderFifo.items.head?,
      (TLPMemoryIO3DWHeader.unpack tlp.data).format = .memWrite3DWData → s.writeSide.writeDataMimo.items ≠ []
  | _ => True

instance (c : SlaveConfig) (s : MemSlaveEngine) : ∀ a, Decidable (c.DataFirst s a)
  | .writeReq req => inferInstanceAs (Decidable (0 < (c.burstLen req).toNat))
  | .writeHeaderTlp => inferInstanceAs (Decidable (∀ tlp ∈ s.writeSide.tlpWriteHeaderFifo.items.head?,
      (TLPMemoryIO3DWHeader.unpack tlp.data).format = .memWrite3DWData → s.writeSide.writeDataMimo.items ≠ []))
  | .writeData _ | .writeDone | .readReq _ | .request | .writeTlps _ | .response _ | .tlpInRule | .handleTlpRule
  | .tofifosData | .tofifosTag | .readData => inferInstanceAs (Decidable True)

/-- The write packets that have been sent, and the one that has begun. -/
def startedPackets (tr : List (Event c)) : List (List TLPData) :=
  writePackets tr ++ if (packets (sentBeats tr)).2 = [] then [] else [(packets (sentBeats tr)).2]

/-- A packet with a short header and the data of a request. -/
structure Dense (p : List TLPData) (b : Burst c) : Prop where
  /-- The first dword is there. -/
  available : b.words ≠ []
  /-- It is in the first beat. -/
  first : ∃ t ts, p = t :: ts ∧ t.sof = true ∧ t.be = 0xffff ∧
    b.words.head?.map byteSwap = some (t.data.extractLsb' 0 32)
  /-- The other beats are full, up to the last. -/
  full : ∀ t ∈ p, t.eof = false → t.be = 0xffff

/-! ## Full beats -/

/-- The first beat is full, and so are the others up to the last. -/
def FullBeats (p : List TLPData) : Prop :=
  (∀ t ∈ p, t.eof = false → t.be = 0xffff) ∧ ∀ t ∈ p.head?, t.be = 0xffff

/-- The write packets of a stream are full. -/
def Full (l : List TLPData) : Prop :=
  (∀ p ∈ (packets l).1, isWrite p = true → FullBeats p) ∧ FullBeats (packets l).2

namespace Full

variable {l : List TLPData} {tlp : TLPData}

lemma fullBeats_nil : FullBeats [] := by
  constructor <;> intro t ht <;> cases ht

lemma nil : Full [] := by
  refine ⟨fun p hp => ?_, fullBeats_nil⟩
  cases hp

/-- A beat is added to a packet. -/
lemma fullBeats_concat {p : List TLPData} (hp : FullBeats p) (hfull : tlp.eof = false → tlp.be = 0xffff)
    (hfirst : p = [] → tlp.be = 0xffff) : FullBeats (p ++ [tlp]) := by
  refine ⟨fun t ht => ?_, fun t ht => ?_⟩
  · rcases List.mem_append.mp ht with ht | ht
    · exact hp.1 t ht
    · rw [List.mem_singleton.mp ht]
      exact hfull
  · cases p with
    | nil =>
      cases ht
      exact hfirst rfl
    | cons t' ts => exact hp.2 t ht

/-- A beat is sent that is full if it is not the last of a packet, or if it is the first. -/
lemma concat (h : Full l) (hfull : tlp.eof = false → tlp.be = 0xffff)
    (hfirst : (packets l).2 = [] → tlp.be = 0xffff) : Full (l ++ [tlp]) := by
  have hbeats := fullBeats_concat h.2 hfull hfirst
  cases heof : tlp.eof with
  | false =>
    rw [Full, Sends.packets_of_more l heof]
    exact ⟨h.1, hbeats⟩
  | true =>
    rw [Full, Sends.packets_of_last l heof]
    refine ⟨fun p hp hw => ?_, fullBeats_nil⟩
    rcases List.mem_append.mp hp with hp | hp
    · exact h.1 p hp hw
    · rw [List.mem_singleton.mp hp]
      exact hbeats

/-- A read request is sent. -/
lemma readRequest (h : Full l) (req : MemRequest 40) (hnil : (packets l).2 = []) :
    Full (l ++ [c.readRequest req]) := by
  rw [Full, Sends.packets_of_last l (c.readRequest_eof req), hnil]
  refine ⟨fun p hp hw => ?_, fullBeats_nil⟩
  rcases List.mem_append.mp hp with hp | hp
  · exact h.1 p hp hw
  · rw [List.mem_singleton.mp hp, List.nil_append, c.isWrite_readRequest req] at hw
    cases hw

/-- A header that is sent, if there are data for a short one. -/
lemma header_sent {tr : List (Event c)} {s s' : WriteSide} {finished pending : List (Burst c)}
    {current : Option (Burst c)} {sent : List (BitVec 32)}
    (hsends : Sends (log tr) s finished current pending sent)
    (hdata : ∀ tlp ∈ s.tlpWriteHeaderFifo.items.head?,
      (TLPMemoryIO3DWHeader.unpack tlp.data).format = .memWrite3DWData → s.writeDataMimo.items ≠ [])
    (hs : s.writeHeaderTlp = some (s', some tlp)) :
    s.writeInProgress = false ∧ s.writeDataMimo.items ≠ [] ∧ tlp.be = 0xffff ∧ ∃ b rest, pending = b :: rest := by
  have hne := WriteSide.exists_header hs
  rw [hsends.headers] at hne
  obtain ⟨b, rest, rfl⟩ := List.exists_cons_of_ne_nil (mt List.map_eq_nil_iff.mpr hne)
  have hpos : 0 < (c.tlplen b.req).toNat := by
    rw [c.toNat_tlplen b.req]
    exact Nat.mul_pos c.width.pos (hsends.lacks.pos b (by rw [hsends.bursts]; simp))
  obtain ⟨hprog, ⟨hnone, -⟩ | ⟨tlp', k, heq, -, -, -, -, -, hlong, hbe⟩⟩ :=
    WriteSide.writeHeaderTlp_cases hsends.headers hpos hs
  · cases hnone
  · cases heq
    have hitems : s.writeDataMimo.items ≠ [] := by
      by_cases hl : b.req.addr >>> 32 ≠ 0
      · exact hlong hl
      · refine hdata (c.writeHeader b.req) (by rw [hsends.headers]; rfl) ?_
        rw [(@WriteSide.unpack_writeHeader c b.req).2.2]
        exact if_neg hl
    exact ⟨hprog, hitems, hbe hitems, b, rest, rfl⟩

/-- Rule `writeHeaderTlp`, if there are data for a short header. -/
lemma writeHeaderTlp {tr : List (Event c)} {s s' : WriteSide} {finished pending : List (Burst c)}
    {current : Option (Burst c)} {sent : List (BitVec 32)} {o : Option TLPData}
    (h : Full (sentBeats tr)) (hsends : Sends (log tr) s finished current pending sent)
    (hdata : ∀ tlp ∈ s.tlpWriteHeaderFifo.items.head?,
      (TLPMemoryIO3DWHeader.unpack tlp.data).format = .memWrite3DWData → s.writeDataMimo.items ≠ [])
    (hs : s.writeHeaderTlp = some (s', o)) : Full (sentBeats tr ++ o.toList) := by
  cases o with
  | none => rwa [Option.toList_none, List.append_nil]
  | some tlp =>
    obtain ⟨-, -, hbe, -⟩ := header_sent hsends hdata hs
    exact h.concat (fun _ => hbe) fun _ => hbe

/-- Rule `writeTlps`. -/
lemma writeTlps {tr : List (Event c)} {s s' : WriteSide} {finished pending : List (Burst c)}
    {current : Option (Burst c)} {sent : List (BitVec 32)} {o : Option TLPData} {stale : ℕ → BitVec 32}
    (h : Full (sentBeats tr)) (hsends : Sends (log tr) s finished current pending sent)
    (hs : s.writeTlps c stale = some (s', o)) : Full (sentBeats tr ++ o.toList) := by
  cases current with
  | none => simp [WriteSide.writeTlps, hsends.inProgress] at hs
  | some b =>
    obtain ⟨hne, -, -, hpos⟩ := hsends.busy b rfl
    obtain ⟨-, ⟨rfl, -⟩ | ⟨tlp, k, rfl, -, -, -, -, -, -, hfull⟩⟩ := WriteSide.writeTlps_cases hpos hs
    · rwa [Option.toList_none, List.append_nil]
    · exact h.concat hfull fun hnil => absurd hnil hne

/-- The methods that send nothing. -/
lemma sentBeats_of_step {s s' : MemSlaveEngine} {a : Action c} {es : List (Event c)}
    (hs : (memSlaveEngine c).step s a = some (s', es)) (hread : ∀ req, a ≠ .readReq req)
    (hheader : a ≠ .writeHeaderTlp) (hdata : ∀ stale, a ≠ .writeTlps stale) : sentBeats es = [] := by
  cases a with
  | readReq req => exact absurd rfl (hread req)
  | writeHeaderTlp => exact absurd rfl hheader
  | writeTlps stale => exact absurd rfl (hdata stale)
  | _ =>
    simp only [memSlaveEngine, bind, pure, Option.bind_eq_some_iff, Option.some.injEq, Prod.mk.injEq,
      Prod.exists] at hs
    first
      | obtain ⟨_, _, -, rfl⟩ := hs
        rfl
      | obtain ⟨_, _, _, -, rfl⟩ := hs
        rfl
      | obtain ⟨_, _, _, _, -, rfl⟩ := hs
        rfl

/-- A step. -/
lemma step {tr es : List (Event c)} {e e' : MemSlaveEngine} {a : Action c}
    {finished pending : List (Burst c)} {current : Option (Burst c)} {sent : List (BitVec 32)}
    (h : Full (sentBeats tr)) (hsends : Sends (log tr) e.writeSide finished current pending sent)
    (hok : c.DataFirst e a) (hs : (memSlaveEngine c).step e a = some (e', es)) :
    Full (sentBeats (tr ++ es)) := by
  rw [sentBeats_append]
  cases a with
  | readReq req =>
    simp only [memSlaveEngine, bind, pure, Option.bind_eq_some_iff, Prod.exists, Option.some.injEq,
      Prod.mk.injEq] at hs
    obtain ⟨w, tlp, hw, -, rfl⟩ := hs
    simp only [WriteSide.readReq, Option.ite_none_right_eq_some, bind, pure, Option.bind_eq_some_iff,
      Option.some.injEq, Prod.mk.injEq] at hw
    obtain ⟨hidle, out, -, -, rfl⟩ := hw
    have hprog : e.writeSide.writeInProgress = false := by simpa using hidle.1
    rw [hsends.inProgress, Option.isSome_eq_false_iff, Option.isNone_iff_eq_none] at hprog
    exact h.readRequest req (hsends.idle hprog).1
  | writeHeaderTlp =>
    simp only [memSlaveEngine, bind, pure, Option.bind_eq_some_iff, Prod.exists, Option.some.injEq,
      Prod.mk.injEq] at hs
    obtain ⟨w, o, hw, -, rfl⟩ := hs
    have hfull := h.writeHeaderTlp hsends hok hw
    cases o <;> exact hfull
  | writeTlps stale =>
    simp only [memSlaveEngine, bind, pure, Option.bind_eq_some_iff, Prod.exists, Option.some.injEq,
      Prod.mk.injEq] at hs
    obtain ⟨w, o, hw, -, rfl⟩ := hs
    have hfull := h.writeTlps hsends hw
    cases o <;> exact hfull
  | _ =>
    rw [sentBeats_of_step hs (by simp) (by simp) (by simp), List.append_nil]
    exact h

end Full

/-! ## Dense packets -/

/-- A packet with a short header whose beats are full is dense. -/
lemma dense_of_fullBeats {p : List TLPData} {b : Burst c} {ds : List (BitVec 32)} (hds : ds <+: b.words)
    (hdwords : packetDwords p = c.headerDwords b.req ++ ds.map byteSwap) (hfull : FullBeats p)
    (hsof : SofFirst p) (hne : p ≠ []) (hshort : writeFormat b.req = .memWrite3DWData) : Dense p b := by
  obtain ⟨t, ts, rfl⟩ := List.exists_cons_of_ne_nil hne
  have hbe : t.be = 0xffff := hfull.2 t rfl
  have hlanes : t.dwords = lanes t.data := TLPData.dwords_eq t (Nat.le_refl 4) hbe
  -- the header takes three dwords of the first beat, and the data follow
  have hlen : (c.headerDwords b.req).length = 3 := by
    obtain ⟨h, -, -, rest, -, hlen⟩ := c.exists_headerDwords b.req
    rw [hlen, hshort]
    rfl
  have hdrop : t.data.extractLsb' 0 32 :: packetDwords ts = ds.map byteSwap := by
    have hcut := congrArg (List.drop 3) hdwords
    rw [List.drop_left' hlen, packetDwords, List.flatMap_cons, hlanes] at hcut
    exact hcut
  obtain ⟨rest, hrest⟩ := hds
  cases ds with
  | nil => cases hdrop
  | cons x xs =>
    rw [List.map_cons, List.cons.injEq] at hdrop
    refine ⟨?_, ⟨t, ts, rfl, hsof.1, hbe, ?_⟩, hfull.1⟩
    · rw [← hrest]
      exact List.cons_ne_nil _ _
    · rw [← hrest, hdrop.1]
      rfl

section Started

variable {tr : List (Event c)} {s : WriteSide} {finished pending : List (Burst c)}
  {current : Option (Burst c)} {sent : List (BitVec 32)}

/-- The number of packets that have begun. -/
lemma Sends.length_startedPackets (h : Sends (log tr) s finished current pending sent) :
    (startedPackets tr).length = (finished ++ current.toList).length := by
  unfold startedPackets
  rw [List.length_append, List.length_append, h.length_writePackets]
  congr 1
  cases current with
  | none =>
    have hnil : (Xbsv.packets (sentBeats tr)).2 = [] := (h.idle rfl).1
    rw [if_pos hnil]
    rfl
  | some b =>
    have hne : (Xbsv.packets (sentBeats tr)).2 ≠ [] := (h.busy b rfl).1
    rw [if_neg hne]
    rfl

/-- A packet that has begun is that of the request with its number. -/
lemma Sends.exists_burst (h : Sends (log tr) s finished current pending sent) (hfull : Full (sentBeats tr))
    {i : ℕ} {p : List TLPData} (hp : (startedPackets tr)[i]? = some p) :
    ∃ b ds, (Xbsv.bursts tr)[i]? = some b ∧ ds <+: b.words ∧
      packetDwords p = c.headerDwords b.req ++ ds.map byteSwap ∧ FullBeats p ∧ SofFirst p ∧ p ≠ [] := by
  have hbs : Xbsv.bursts tr = finished ++ (current.toList ++ pending) := h.bursts
  have hlen := h.length_writePackets
  unfold startedPackets at hp
  rcases Nat.lt_or_ge i (writePackets tr).length with hi | hi
  · -- a packet that is complete
    rw [List.getElem?_append_left hi, List.getElem?_eq_getElem hi, Option.some.injEq] at hp
    have hmem : p ∈ writePackets tr := by
      rw [← hp]
      exact List.getElem_mem hi
    obtain ⟨hpacket, hwrite⟩ := List.mem_filter.mp hmem
    have hi' : i < finished.length := by omega
    have hdw : packetDwords p = (finished[i]).dwords := by
      have hget := congrArg (fun l => l[i]?) h.writes
      simp only [List.getElem?_map] at hget
      rw [List.getElem?_eq_getElem hi', show ((Xbsv.packets (log tr).sentBeats).1.filter isWrite)[i]? = some p
        from by rw [← hp]; exact List.getElem?_eq_getElem hi] at hget
      exact Option.some.inj hget
    obtain ⟨hsof, ts, t, rfl, -⟩ := h.packets p hpacket
    refine ⟨finished[i], (finished[i]).words, ?_, List.prefix_rfl, hdw, hfull.1 _ hpacket hwrite, hsof, by simp⟩
    rw [hbs, List.getElem?_append_left hi', List.getElem?_eq_getElem hi']
  · -- the packet that has begun
    rw [List.getElem?_append_right hi] at hp
    split at hp
    · cases hp
    · rename_i hne
      obtain ⟨hi0, rfl⟩ : i - (writePackets tr).length = 0 ∧ (Xbsv.packets (sentBeats tr)).2 = p := by
        cases hd : i - (writePackets tr).length with
        | zero =>
          rw [hd] at hp
          exact ⟨rfl, Option.some.inj hp⟩
        | succ d =>
          rw [hd] at hp
          cases hp
      cases current with
      | none => exact absurd (h.idle rfl).1 hne
      | some b =>
        obtain ⟨-, hdw, -⟩ := h.busy b rfl
        refine ⟨b, sent, ?_, h.sent_prefix, hdw, hfull.2, h.begun.1, hne⟩
        rw [hbs, List.getElem?_append_right (by omega), show i - finished.length = 0 by omega]
        rfl

end Started

/-- **Write packets are dense.** In every run in which the write requests ask for data and the rule
`writeHeaderTlp` does not fire on a short header before there are data, the write packets with a short header,
also the one that has begun, carry the first dword of their data in the first beat and are full up to the last
beat. No header is sent before there are data.

**Proof sketch.** The rule takes a dword along with a short header if there is one (`writeHeaderTlp_cases`),
and the condition rules the other case out. That the dword is the first of the request is known from the
packet as a whole (`Sends`). -/
theorem dense_of_dataFirst {tr : List (Event c)} {s : MemSlaveEngine}
    (h : ((memSlaveEngine c).guard c.DataFirst).Reaches .reset tr s) :
    (∀ (i : ℕ) p, (startedPackets tr)[i]? = some p → formatOf (packetDwords p) = some .memWrite3DWData →
      ∃ b, (bursts tr)[i]? = some b ∧ Dense p b) ∧
    ∀ s' tlp, c.DataFirst s .writeHeaderTlp → s.writeSide.writeHeaderTlp = some (s', some tlp) →
      ∃ b, (bursts tr)[(startedPackets tr).length]? = some b ∧ b.words ≠ [] := by
  have hinv : (∃ finished current pending sent, Sends (log tr) s.writeSide finished current pending sent) ∧
      Full (sentBeats tr) := by
    refine h.invariant (I := fun tr s => (∃ finished current pending sent,
      Sends (log tr) s.writeSide finished current pending sent) ∧ Full (sentBeats tr))
      ⟨⟨[], none, [], [], .reset⟩, .nil⟩ ?_
    rintro tr s a s' es ⟨⟨finished, current, pending, sent, hsends⟩, hfull⟩ hs
    obtain ⟨hok, hs⟩ := RuleSystem.guard_step.mp hs
    refine ⟨hsends.step (fun req ha => ?_) hs, hfull.step hsends hok hs⟩
    subst ha
    exact hok
  obtain ⟨⟨finished, current, pending, sent, hsends⟩, hfull⟩ := hinv
  constructor
  · intro i p hp hformat
    obtain ⟨b, ds, hb, hds, hdw, hbeats, hsof, hne⟩ := hsends.exists_burst hfull hp
    refine ⟨b, hb, dense_of_fullBeats hds hdw hbeats hsof hne ?_⟩
    rw [hdw, SlaveConfig.formatOf_headerDwords] at hformat
    exact Option.some.inj hformat
  · intro s' tlp hok hs
    obtain ⟨hprog, hitems, -, b, rest, rfl⟩ := Full.header_sent hsends hok hs
    rw [hsends.inProgress, Option.isSome_eq_false_iff, Option.isNone_iff_eq_none] at hprog
    subst hprog
    obtain ⟨-, rfl⟩ := hsends.idle rfl
    have hbs : bursts tr = finished ++ b :: rest := hsends.bursts
    have hdata : [] ++ s.writeSide.writeDataMimo.items = (b :: rest).flatMap Burst.words := hsends.data
    have hsize : 0 < b.size := Nat.mul_pos c.width.pos (hsends.lacks.pos b (by
      show b ∈ bursts tr
      rw [hbs]
      simp))
    have hpre := hsends.lacks.prefix_words hbs hdata (n := 1) (by rw [List.length_nil]; omega)
    refine ⟨b, ?_, fun hnil => ?_⟩
    · rw [hsends.length_startedPackets, hbs, Option.toList_none, List.append_nil,
        List.getElem?_append_right (Nat.le_refl _), Nat.sub_self]
      rfl
    · rw [hnil, List.nil_append, List.prefix_nil, List.take_eq_nil_iff] at hpre
      exact hpre.elim (by decide) hitems

/-- A write of four dwords, whose header is sent after the first beat of data has come. -/
def denseWrite :=
  ((memSlaveEngine twoWords).guard twoWords.DataFirst).run .reset
    [.writeReq ⟨0x1000, 16, 1⟩, .writeData ⟨0x0000000200000001, 0, false⟩, .writeHeaderTlp,
      .writeData ⟨0x0000000400000003, 0, true⟩, .request, .writeTlps fun _ => 0]

theorem dense_of_dataFirst_denseWrite :
    (startedPackets denseWrite.2).map (List.map TLPData.be) = [[0xffff, 0xfff0]] ∧
      (∀ (i : ℕ) p, (startedPackets denseWrite.2)[i]? = some p →
        formatOf (packetDwords p) = some .memWrite3DWData →
        ∃ b, (bursts denseWrite.2)[i]? = some b ∧ Dense p b) ∧
      ∀ s' tlp, twoWords.DataFirst denseWrite.1 .writeHeaderTlp →
        denseWrite.1.writeSide.writeHeaderTlp = some (s', some tlp) →
        ∃ b, (bursts denseWrite.2)[(startedPackets denseWrite.2).length]? = some b ∧ b.words ≠ [] :=
  ⟨by decide +kernel, dense_of_dataFirst (RuleSystem.reaches_run _ _)⟩

/-- The header of a write of two dwords is sent before the data have come. -/
def hastyHeader :=
  ((memSlaveEngine twoWords).guard twoWords.WholeBeats).run .reset [.writeReq ⟨0x1000, 8, 1⟩, .writeHeaderTlp]

theorem not_dense_hastyHeader :
    ¬ ∀ (c : SlaveConfig) (tr : List (Event c)) (s : MemSlaveEngine),
      ((memSlaveEngine c).guard c.WholeBeats).Reaches .reset tr s →
        ∀ (i : ℕ) p, (startedPackets tr)[i]? = some p →
          formatOf (packetDwords p) = some .memWrite3DWData →
          ∃ b, (bursts tr)[i]? = some b ∧ Dense p b := by
  intro h
  have hstarted : ((startedPackets hastyHeader.2)[0]?.map fun p => formatOf (packetDwords p)) =
      some (some .memWrite3DWData) := by decide +kernel
  obtain ⟨p, hp, hformat⟩ := Option.map_eq_some_iff.mp hstarted
  obtain ⟨b, hb, hdense⟩ := h twoWords hastyHeader.2 hastyHeader.1 (RuleSystem.reaches_run _ _) 0 p hp hformat
  have hwords : ((bursts hastyHeader.2)[0]?.map Burst.words) = some [] := by decide +kernel
  rw [hb] at hwords
  exact hdense.available (Option.some.inj hwords)

end Xbsv
