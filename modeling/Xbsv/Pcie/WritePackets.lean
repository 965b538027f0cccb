import Mathlib.Data.List.ModifyLast
import Xbsv.Pcie.WriteBeats

set_option relaxedAutoImplicit false
set_option autoImplicit false

/-!
# The packets of the slave engine

The beats that the engine sends are whole packets. Read requests are packets of one beat. A write packet
consists of the header of a request and its data, in the order of the requests, and when its last beat has
been sent the request is reported as done.

## Main definitions

* `Xbsv.Burst`, `Xbsv.bursts` — the write requests of a run, each with its data.
* `Xbsv.Emits` — what has been sent.
* `Xbsv.SlaveConfig.HasData`, `Xbsv.SlaveConfig.WholeBeats` — the write requests have data, and a beat of data
  has a power of two dwords.

## Main results

* `Xbsv.emits_of_whole` — every run in which the write requests have data.
-/

namespace Xbsv

open Rules MemSlaveEngine

variable {c : SlaveConfig}

/-! ## What a run asks for -/

/-- A write request with the data that came after it. -/
structure Burst (c : SlaveConfig) where
  req : MemRequest 40
  beats : List (ObjectData (32 * c.width.words))
  deriving DecidableEq

namespace Burst

variable (b : Burst c)

/-- The dwords of the data. -/
def words : List (BitVec 32) := b.beats.flatMap c.beatWords

/-- The number of dwords that the request asks for. -/
def size : ℕ := c.width.words * (c.burstLen b.req).toNat

/-- The dwords of the packet. -/
def dwords : List (BitVec 32) := c.headerDwords b.req ++ b.words.map byteSwap

lemma length_words : b.words.length = c.width.words * b.beats.length := by
  unfold words
  have hbeat (d : ObjectData (32 * c.width.words)) : (c.beatWords d).length = c.width.words := by
    rw [SlaveConfig.beatWords, List.length_map, List.length_range]
  rw [List.length_flatMap]
  simp only [hbeat, List.map_const', List.sum_replicate_nat]
  exact Nat.mul_comm _ _

/-- The header of the packet. -/
lemma take_dwords : b.dwords.take (headerLength b.dwords) = c.headerDwords b.req := by
  unfold dwords
  rw [← SlaveConfig.length_headerDwords, List.take_left]

/-- The data of the packet. -/
lemma drop_dwords : b.dwords.drop (headerLength b.dwords) = b.words.map byteSwap := by
  unfold dwords
  rw [← SlaveConfig.length_headerDwords, List.drop_left]

/-- The data with one more beat. -/
def addBeat (d : ObjectData (32 * c.width.words)) (b : Burst c) : Burst c := ⟨b.req, b.beats ++ [d]⟩

end Burst

/-- The requests after an event. -/
def addEvent (bs : List (Burst c)) : Event c → List (Burst c)
  | .writeReq req => bs ++ [⟨req, []⟩]
  | .writeData d => bs.modifyLast (Burst.addBeat d)
  | _ => bs

/-- The write requests of a run, each with its data. -/
def bursts (tr : List (Event c)) : List (Burst c) := tr.foldl addEvent []

/-- The beats that were put into `tlpOutFifo`. -/
def sentBeats (tr : List (Event c)) : List TLPData :=
  tr.filterMap fun
    | .sent tlp => some tlp
    | _ => none

/-- The beats that were taken from `tlpOutFifo`. -/
def requested (tr : List (Event c)) : List TLPData :=
  tr.filterMap fun
    | .request tlp => some tlp
    | _ => none

/-- The tags that were reported as done. -/
def writeDones (tr : List (Event c)) : List (BitVec 6) :=
  tr.filterMap fun
    | .writeDone tag => some tag
    | _ => none

/-- The read requests. -/
def readReqs (tr : List (Event c)) : List (MemRequest 40) :=
  tr.filterMap fun
    | .readReq req => some req
    | _ => none

section Traces

variable (tr es : List (Event c))

@[simp] lemma sentBeats_append : sentBeats (tr ++ es) = sentBeats tr ++ sentBeats es := List.filterMap_append

@[simp] lemma requested_append : requested (tr ++ es) = requested tr ++ requested es := List.filterMap_append

@[simp] lemma writeDones_append : writeDones (tr ++ es) = writeDones tr ++ writeDones es :=
  List.filterMap_append

@[simp] lemma readReqs_append : readReqs (tr ++ es) = readReqs tr ++ readReqs es := List.filterMap_append

lemma bursts_append : bursts (tr ++ es) = es.foldl addEvent (bursts tr) := List.foldl_append

end Traces

/-! ## What has been sent -/

/-- The write packets among those that have been sent. -/
def writePackets (tr : List (Event c)) : List (List TLPData) := (packets (sentBeats tr)).1.filter isWrite

/-- The requests that have been sent. -/
def sentBursts (tr : List (Event c)) : List (Burst c) := (bursts tr).take (writePackets tr).length

/-- What has been sent. -/
structure Emits (tr : List (Event c)) (s : WriteSide) : Prop where
  /-- The beats come out as they were sent. -/
  fifo : requested tr ++ s.tlpOutFifo.items = sentBeats tr
  /-- They are whole packets, and the beginning of another one. -/
  packets : ∀ p ∈ (packets (sentBeats tr)).1, IsPacket p
  begun : IsPartial (Xbsv.packets (sentBeats tr)).2
  /-- Those that are not write packets are the read requests. -/
  reads : ((Xbsv.packets (sentBeats tr)).1.filter fun p => !isWrite p).flatten = (readReqs tr).map c.readRequest
  /-- There is a request for every write packet, in order, with its header and its data. -/
  length : (sentBursts tr).length = (writePackets tr).length
  header : (writePackets tr).map packetHeader = (sentBursts tr).map fun b => c.headerDwords b.req
  payload : (writePackets tr).map payload = (sentBursts tr).map fun b => b.words.map byteSwap
  /-- There are as many dwords of data as the header says and as were asked for. -/
  lengthOf : ∀ p ∈ writePackets tr, lengthOf (packetDwords p) = (Xbsv.payload p).length
  whole : ∀ b ∈ sentBursts tr, b.beats.length = (c.burstLen b.req).toNat
  /-- A packet that has begun is that of the next request. -/
  next : (Xbsv.packets (sentBeats tr)).2 ≠ [] → ∃ b ∈ (bursts tr)[(writePackets tr).length]?,
    packetDwords (Xbsv.packets (sentBeats tr)).2 <+: b.dwords
  /-- The requests are reported as done, in order, after their last beat. -/
  done : writeDones tr ++ s.doneTag.items.map (BitVec.setWidth 6) = (sentBursts tr).map fun b => b.req.tag

/-! ## The invariant -/

/-- All requests have their data, but the last lacks `k` beats. -/
structure Lacks (k : ℕ) (bs : List (Burst c)) : Prop where
  before : ∀ b ∈ bs.dropLast, b.beats.length = (c.burstLen b.req).toNat
  last : ∀ b ∈ bs.getLast?, b.beats.length + k = (c.burstLen b.req).toNat
  nil : bs = [] → k = 0
  pos : ∀ b ∈ bs, 0 < (c.burstLen b.req).toNat

namespace Lacks

variable {k : ℕ} {bs : List (Burst c)}

lemma empty : Lacks 0 ([] : List (Burst c)) := by
  constructor <;> simp

/-- If nothing is lacking, all requests have their data. -/
lemma whole (h : Lacks 0 bs) : ∀ b ∈ bs, b.beats.length = (c.burstLen b.req).toNat := by
  intro b hb
  rcases List.eq_nil_or_concat' bs with rfl | ⟨init, last, rfl⟩
  · cases hb
  · rw [List.mem_append, List.mem_singleton] at hb
    rcases hb with hb | rfl
    · exact h.before b (by simpa using hb)
    · exact h.last b (by simp)

/-- A request comes in. -/
lemma writeReq (h : Lacks 0 bs) {req : MemRequest 40} (hpos : 0 < (c.burstLen req).toNat) :
    Lacks (c.burstLen req).toNat (bs ++ [⟨req, []⟩]) := by
  refine ⟨?_, ?_, fun hnil => by simp at hnil, ?_⟩
  · intro b hb
    rw [List.dropLast_concat] at hb
    exact h.whole b hb
  · intro b hb
    simp only [List.getLast?_append, List.getLast?_singleton, Option.some_or, Option.mem_def,
      Option.some.injEq] at hb
    subst hb
    exact Nat.zero_add _
  · intro b hb
    rw [List.mem_append, List.mem_singleton] at hb
    rcases hb with hb | rfl
    · exact h.pos b hb
    · exact hpos

/-- A beat of data comes in. -/
lemma writeData (h : Lacks (k + 1) bs) (d : ObjectData (32 * c.width.words)) :
    Lacks k (bs.modifyLast (Burst.addBeat d)) := by
  rcases List.eq_nil_or_concat' bs with rfl | ⟨init, last, rfl⟩
  · exact absurd (h.nil rfl) (by omega)
  · have hlast := h.last last (by simp)
    rw [List.modifyLast_concat]
    refine ⟨?_, ?_, fun hnil => by simp at hnil, ?_⟩
    · intro b hb
      rw [List.dropLast_concat] at hb
      exact h.before b (by rw [List.dropLast_concat]; exact hb)
    · intro b hb
      simp only [List.getLast?_append, List.getLast?_singleton, Option.some_or, Option.mem_def,
        Option.some.injEq] at hb
      subst hb
      show (last.beats ++ [d]).length + k = _
      rw [List.length_append, List.length_singleton]
      exact (by omega : last.beats.length + 1 + k = last.beats.length + (k + 1)).trans hlast
    · intro b hb
      rw [List.mem_append, List.mem_singleton] at hb
      rcases hb with hb | rfl
      · exact h.pos b (List.mem_append_left _ hb)
      · exact h.pos last (by simp)

/-- No request has more data than it asks for, and those before the last have all. -/
lemma length_words_le (h : Lacks k bs) {b : Burst c} (hb : b ∈ bs) : b.words.length ≤ b.size := by
  rw [b.length_words]
  refine Nat.mul_le_mul_left _ ?_
  rcases List.eq_nil_or_concat' bs with rfl | ⟨init, last, rfl⟩
  · cases hb
  · rw [List.mem_append, List.mem_singleton] at hb
    rcases hb with hb | rfl
    · exact (h.before b (by simpa using hb)).le
    · have := h.last b (by simp)
      omega

/-- **The next dwords are those of the request that is being sent.** The queue may hold the data of later
requests too, but then those of this one are complete. -/
lemma prefix_words (h : Lacks k bs) {finished rest : List (Burst c)} {b : Burst c}
    (hbs : bs = finished ++ b :: rest) {sent items : List (BitVec 32)}
    (hdata : sent ++ items = (b :: rest).flatMap Burst.words) {n : ℕ} (hle : sent.length + n ≤ b.size) :
    sent ++ items.take n <+: b.words := by
  have hpre : sent ++ items.take n <+: b.words ++ rest.flatMap Burst.words := by
    rw [← List.flatMap_cons, ← hdata]
    exact (List.prefix_append_right_inj sent).mpr (List.take_prefix n items)
  rcases List.eq_nil_or_concat' rest with rfl | ⟨init, last, rfl⟩
  · simpa using hpre
  · have hmem : b ∈ bs.dropLast := by
      rw [hbs, ← List.cons_append, ← List.append_assoc, List.dropLast_concat]
      exact List.mem_append_right _ List.mem_cons_self
    have hlen : b.words.length = b.size := by
      rw [b.length_words, h.before b hmem]
      rfl
    refine List.prefix_of_prefix_length_le hpre (List.prefix_append _ _) ?_
    rw [List.length_append, List.length_take]
    omega

/-- When as many dwords have been sent as the request asks for, they are its data. -/
lemma words_eq (h : Lacks k bs) {finished rest : List (Burst c)} {b : Burst c}
    (hbs : bs = finished ++ b :: rest) {sent items : List (BitVec 32)}
    (hdata : sent ++ items = (b :: rest).flatMap Burst.words) {n : ℕ} (hn : n ≤ items.length)
    (hsize : sent.length + n = b.size) :
    b.words = sent ++ items.take n ∧ b.beats.length = (c.burstLen b.req).toNat := by
  have hpre := h.prefix_words hbs hdata hsize.le
  have hlen : (sent ++ items.take n).length = b.size := by
    rw [List.length_append, List.length_take_of_le hn, hsize]
  have hle : b.words.length ≤ b.size := h.length_words_le (by rw [hbs]; simp)
  have heq : sent ++ items.take n = b.words := hpre.eq_of_length_le (by omega)
  refine ⟨heq.symm, ?_⟩
  have hwords := b.length_words
  rw [← heq, hlen] at hwords
  exact (Nat.eq_of_mul_eq_mul_left c.width.pos hwords).symm

end Lacks

/-- What counts of a run. -/
structure Log (c : SlaveConfig) where
  bursts : List (Burst c)
  sentBeats : List TLPData
  requested : List TLPData
  writeDones : List (BitVec 6)
  readReqs : List (MemRequest 40)

/-- What counts of a run. -/
def log (tr : List (Event c)) : Log c := ⟨bursts tr, sentBeats tr, requested tr, writeDones tr, readReqs tr⟩

/-- What counts of a run, after one more event. -/
def Log.add (l : Log c) : Event c → Log c
  | .writeReq req => { l with bursts := l.bursts ++ [⟨req, []⟩] }
  | .writeData d => { l with bursts := l.bursts.modifyLast (Burst.addBeat d) }
  | .writeDone tag => { l with writeDones := l.writeDones ++ [tag] }
  | .readReq req => { l with readReqs := l.readReqs ++ [req] }
  | .sent tlp => { l with sentBeats := l.sentBeats ++ [tlp] }
  | .request tlp => { l with requested := l.requested ++ [tlp] }
  | .response _ => l
  | .readData _ _ => l

lemma log_concat (tr : List (Event c)) (e : Event c) : log (tr ++ [e]) = (log tr).add e := by
  unfold log
  rw [bursts_append, sentBeats_append, requested_append, writeDones_append, readReqs_append]
  cases e <;> simp [Log.add, addEvent, sentBeats, requested, writeDones, readReqs]

/-- What counts of a run, after a rule that may have sent a beat. -/
lemma log_append_sent (tr : List (Event c)) (o : Option TLPData) :
    log (tr ++ o.toList.map .sent) = { log tr with sentBeats := (log tr).sentBeats ++ o.toList } := by
  cases o with
  | none => simp
  | some tlp => exact log_concat tr (.sent tlp)

/-- The state agrees with the past: the packets of `finished` have been sent, and the dwords `sent` of that of
`current`, if there is one. -/
structure Sends (l : Log c) (s : WriteSide) (finished : List (Burst c)) (current : Option (Burst c))
    (pending : List (Burst c)) (sent : List (BitVec 32)) : Prop where
  bursts : l.bursts = finished ++ (current.toList ++ pending)
  lacks : Lacks s.writeBurstCount.toNat l.bursts
  whole : ∀ b ∈ finished, b.beats.length = (c.burstLen b.req).toNat
  fifo : l.requested ++ s.tlpOutFifo.items = l.sentBeats
  packets : ∀ p ∈ (packets l.sentBeats).1, IsPacket p
  writes : ((Xbsv.packets l.sentBeats).1.filter isWrite).map packetDwords = finished.map Burst.dwords
  reads : ((Xbsv.packets l.sentBeats).1.filter fun p => !isWrite p).flatten = l.readReqs.map c.readRequest
  begun : IsPartial (Xbsv.packets l.sentBeats).2
  idle : current = none → (Xbsv.packets l.sentBeats).2 = [] ∧ sent = []
  busy : ∀ b ∈ current, (Xbsv.packets l.sentBeats).2 ≠ [] ∧
    packetDwords (Xbsv.packets l.sentBeats).2 = c.headerDwords b.req ++ sent.map byteSwap ∧
    sent.length + s.writeDwCount.toNat = b.size ∧ 0 < s.writeDwCount.toNat
  inProgress : s.writeInProgress = current.isSome
  headers : s.tlpWriteHeaderFifo.items = pending.map fun b => c.writeHeader b.req
  tags : s.writeTag.items = (current.toList ++ pending).map fun b => b.req.tag.setWidth 8
  done : l.writeDones ++ s.doneTag.items.map (BitVec.setWidth 6) = finished.map fun b => b.req.tag
  data : sent ++ s.writeDataMimo.items = (current.toList ++ pending).flatMap Burst.words

namespace Sends

variable {l : Log c} {s s' : WriteSide} {finished pending : List (Burst c)} {current : Option (Burst c)}
  {sent : List (BitVec 32)}

lemma reset : Sends (log ([] : List (Event c))) .reset [] none [] [] where
  bursts := rfl
  lacks := .empty
  whole b hb := by cases hb
  fifo := rfl
  packets p hp := by cases hp
  writes := rfl
  reads := rfl
  begun := ⟨trivial, fun t ht => by cases ht⟩
  idle _ := ⟨rfl, rfl⟩
  busy b hb := by cases hb
  inProgress := rfl
  headers := rfl
  tags := rfl
  done := rfl
  data := rfl

/-- A packet with the dwords of a write request is a write packet. -/
lemma isWrite_of_dwords {p : List TLPData} {req : MemRequest 40} {ds : List (BitVec 32)}
    (h : packetDwords p = c.headerDwords req ++ ds) : isWrite p = true := by
  unfold isWrite
  rw [h, SlaveConfig.formatOf_headerDwords]
  unfold writeFormat
  split <;> rfl

/-- A beat that is not the last goes to the packet that has begun. -/
lemma packets_of_more (l : List TLPData) {tlp : TLPData} (h : tlp.eof = false) :
    Xbsv.packets (l ++ [tlp]) = ((Xbsv.packets l).1, (Xbsv.packets l).2 ++ [tlp]) := by
  rw [packets_concat, addBeat, h]
  rfl

/-- The last beat makes a packet of those before. -/
lemma packets_of_last (l : List TLPData) {tlp : TLPData} (h : tlp.eof = true) :
    Xbsv.packets (l ++ [tlp]) = ((Xbsv.packets l).1 ++ [(Xbsv.packets l).2 ++ [tlp]], []) := by
  rw [packets_concat, addBeat, h]
  rfl

/-- The first beat of a packet has `sof`, and the others do not. -/
lemma sofFirst_concat {p : List TLPData} {tlp : TLPData} (hp : SofFirst p)
    (h : tlp.sof = decide (p = [])) : SofFirst (p ++ [tlp]) := by
  cases p with
  | nil => exact ⟨h, fun t ht => by cases ht⟩
  | cons t ts =>
    refine ⟨hp.1, fun t' ht' => ?_⟩
    rcases List.mem_append.mp ht' with ht' | ht'
    · exact hp.2 t' ht'
    · rw [List.mem_singleton.mp ht', h]
      rfl

section Beat

variable {b : Burst c} {rest : List (Burst c)} {tlp : TLPData} {k left : ℕ}

/-- **The last beat of a write packet is sent**, and the request is done. -/
lemma lastBeat (h : Sends l s finished current pending sent) (hnext : current.toList ++ pending = b :: rest)
    (hbeat : s.Beat s' tlp k 0) (hsof : tlp.sof = decide ((Xbsv.packets l.sentBeats).2 = []))
    (hdwords : packetDwords ((Xbsv.packets l.sentBeats).2 ++ [tlp]) =
      c.headerDwords b.req ++ (sent ++ s.writeDataMimo.items.take k).map byteSwap)
    (hleft : sent.length + k = b.size)
    (hheaders : s'.tlpWriteHeaderFifo.items = rest.map fun b => c.writeHeader b.req) :
    Sends { l with sentBeats := l.sentBeats ++ [tlp] } s' (finished ++ [b]) none rest [] := by
  have hbs : l.bursts = finished ++ b :: rest := by rw [h.bursts, hnext]
  have hdata := h.data
  rw [hnext] at hdata
  obtain ⟨hwords, hwhole⟩ := h.lacks.words_eq hbs hdata hbeat.available hleft
  have hwrite := isWrite_of_dwords hdwords
  have hpackets := packets_of_last l.sentBeats (hbeat.eof.trans rfl)
  -- the tag of the request is the first that waits
  obtain ⟨tag, htag, hdone⟩ := hbeat.done rfl
  rw [h.tags, hnext, List.map_cons, List.cons.injEq] at htag
  obtain ⟨rfl, hrest⟩ := htag
  constructor
  case bursts =>
    rw [hbs, List.append_assoc]
    rfl
  case lacks =>
    rw [hbeat.burstCount]
    exact h.lacks
  case whole =>
    intro b' hb'
    rcases List.mem_append.mp hb' with hb' | hb'
    · exact h.whole b' hb'
    · rw [List.mem_singleton.mp hb']
      exact hwhole
  case fifo => rw [hbeat.out, ← List.append_assoc, h.fifo]
  case packets =>
    intro p hp
    rw [hpackets] at hp
    rcases List.mem_append.mp hp with hp | hp
    · exact h.packets p hp
    · rw [List.mem_singleton.mp hp]
      exact ⟨sofFirst_concat h.begun.1 hsof, _, tlp, rfl, hbeat.eof.trans rfl, h.begun.2⟩
  case writes =>
    rw [hpackets, List.filter_append, List.map_append, h.writes, List.map_append]
    simp only [List.filter_cons, hwrite, if_true, List.filter_nil, List.map_cons, List.map_nil, hdwords,
      ← hwords]
    rfl
  case reads =>
    rw [hpackets, List.filter_append, List.flatten_append, h.reads]
    simp only [List.filter_cons, hwrite, Bool.not_true, Bool.false_eq_true, if_false, List.filter_nil,
      List.flatten_nil, List.append_nil]
  case begun =>
    rw [hpackets]
    exact ⟨trivial, fun t ht => by cases ht⟩
  case idle =>
    intro _
    rw [hpackets]
    exact ⟨rfl, rfl⟩
  case busy =>
    intro b' hb'
    cases hb'
  case inProgress => exact hbeat.inProgress.trans rfl
  case headers => exact hheaders
  case tags => exact hrest.symm
  case done =>
    rw [hdone, List.map_append, ← List.append_assoc, h.done, List.map_append]
    simp
  case data =>
    have hcut : sent ++ s.writeDataMimo.items.take k ++ s.writeDataMimo.items.drop k =
        sent ++ s.writeDataMimo.items.take k ++ rest.flatMap Burst.words := by
      rw [List.append_assoc, List.take_append_drop, hdata, List.flatMap_cons, hwords]
    rw [hbeat.data]
    exact List.append_cancel_left hcut

/-- **Another beat of a write packet is sent.** -/
lemma moreBeat (h : Sends l s finished current pending sent) (hnext : current.toList ++ pending = b :: rest)
    (hbeat : s.Beat s' tlp k left) (hsof : tlp.sof = decide ((Xbsv.packets l.sentBeats).2 = []))
    (hdwords : packetDwords ((Xbsv.packets l.sentBeats).2 ++ [tlp]) =
      c.headerDwords b.req ++ (sent ++ s.writeDataMimo.items.take k).map byteSwap)
    (hleft : sent.length + k + left = b.size) (hmore : left ≠ 0)
    (hheaders : s'.tlpWriteHeaderFifo.items = rest.map fun b => c.writeHeader b.req) :
    Sends { l with sentBeats := l.sentBeats ++ [tlp] } s' finished (some b) rest
      (sent ++ s.writeDataMimo.items.take k) := by
  have heof : tlp.eof = false := by rw [hbeat.eof, decide_eq_false hmore]
  have hpackets := packets_of_more l.sentBeats heof
  obtain ⟨htag, hdone⟩ := hbeat.more hmore
  constructor
  case bursts =>
    rw [h.bursts, hnext]
    rfl
  case lacks =>
    rw [hbeat.burstCount]
    exact h.lacks
  case whole => exact h.whole
  case fifo => rw [hbeat.out, ← List.append_assoc, h.fifo]
  case packets =>
    rw [hpackets]
    exact h.packets
  case writes =>
    rw [hpackets]
    exact h.writes
  case reads =>
    rw [hpackets]
    exact h.reads
  case begun =>
    rw [hpackets]
    refine ⟨sofFirst_concat h.begun.1 hsof, fun t ht => ?_⟩
    rcases List.mem_append.mp ht with ht | ht
    · exact h.begun.2 t ht
    · rw [List.mem_singleton.mp ht]
      exact heof
  case idle =>
    intro hnone
    cases hnone
  case busy =>
    intro b' hb'
    cases hb'
    rw [hpackets, hbeat.dwCount, List.length_append, List.length_take_of_le hbeat.available]
    exact ⟨by simp, hdwords, hleft, Nat.pos_of_ne_zero hmore⟩
  case inProgress => rw [hbeat.inProgress, decide_eq_true hmore, Option.isSome_some]
  case headers => exact hheaders
  case tags =>
    rw [htag, h.tags, hnext]
    rfl
  case done =>
    rw [hdone]
    exact h.done
  case data =>
    rw [hbeat.data, List.append_assoc, List.take_append_drop, h.data, hnext]
    rfl

/-- A beat of a write packet is sent. -/
lemma beat (h : Sends l s finished current pending sent) (hnext : current.toList ++ pending = b :: rest)
    (hbeat : s.Beat s' tlp k left) (hsof : tlp.sof = decide ((Xbsv.packets l.sentBeats).2 = []))
    (hdwords : packetDwords ((Xbsv.packets l.sentBeats).2 ++ [tlp]) =
      c.headerDwords b.req ++ (sent ++ s.writeDataMimo.items.take k).map byteSwap)
    (hleft : sent.length + k + left = b.size)
    (hheaders : s'.tlpWriteHeaderFifo.items = rest.map fun b => c.writeHeader b.req) :
    ∃ finished' current' sent',
      Sends { l with sentBeats := l.sentBeats ++ [tlp] } s' finished' current' rest sent' := by
  by_cases hlast : left = 0
  · subst hlast
    exact ⟨_, _, _, h.lastBeat hnext hbeat hsof hdwords hleft hheaders⟩
  · exact ⟨_, _, _, h.moreBeat hnext hbeat hsof hdwords hleft hlast hheaders⟩

end Beat

/-- Rule `writeHeaderTlp`. -/
lemma writeHeaderTlp (h : Sends l s finished current pending sent) {o : Option TLPData}
    (hs : s.writeHeaderTlp = some (s', o)) :
    ∃ finished' current' pending' sent',
      Sends { l with sentBeats := l.sentBeats ++ o.toList } s' finished' current' pending' sent' := by
  have hne := WriteSide.exists_header hs
  rw [h.headers] at hne
  obtain ⟨b, rest, rfl⟩ := List.exists_cons_of_ne_nil (mt List.map_eq_nil_iff.mpr hne)
  have hsize : (c.tlplen b.req).toNat = b.size := c.toNat_tlplen b.req
  have hpos : 0 < (c.tlplen b.req).toNat := by
    rw [hsize]
    exact Nat.mul_pos c.width.pos (h.lacks.pos b (by rw [h.bursts]; simp))
  obtain ⟨hprog, ⟨rfl, rfl⟩ | ⟨tlp, k, rfl, hk, hbeat, hsof, hdw, hheaders, -⟩⟩ :=
    WriteSide.writeHeaderTlp_cases h.headers hpos hs
  · exact ⟨finished, current, b :: rest, sent, by rwa [Option.toList_none, List.append_nil]⟩
  · -- no packet has begun
    rw [h.inProgress, Option.isSome_eq_false_iff, Option.isNone_iff_eq_none] at hprog
    subst hprog
    obtain ⟨hcur, rfl⟩ := h.idle rfl
    have hdwords : packetDwords ((Xbsv.packets l.sentBeats).2 ++ [tlp]) =
        c.headerDwords b.req ++ ([] ++ s.writeDataMimo.items.take k).map byteSwap := by
      rw [hcur, List.nil_append, List.nil_append, packetDwords, List.flatMap_singleton, hdw]
    have hleft : ([] : List (BitVec 32)).length + k + ((c.tlplen b.req).toNat - k) = b.size := by
      rw [List.length_nil]
      omega
    have hnext : (none : Option (Burst c)).toList ++ b :: rest = b :: rest := rfl
    obtain ⟨finished', current', sent', hsends⟩ := h.beat hnext hbeat
      (by rw [hsof, decide_eq_true hcur]) hdwords hleft hheaders
    exact ⟨finished', current', rest, sent', hsends⟩

/-- Rule `writeTlps`. -/
lemma writeTlps (h : Sends l s finished current pending sent) {o : Option TLPData} {stale : ℕ → BitVec 32}
    (hs : s.writeTlps c stale = some (s', o)) :
    ∃ finished' current' pending' sent',
      Sends { l with sentBeats := l.sentBeats ++ o.toList } s' finished' current' pending' sent' := by
  cases current with
  | none => simp [WriteSide.writeTlps, h.inProgress] at hs
  | some b =>
    obtain ⟨hne, hdws, hsize, hpos⟩ := h.busy b rfl
    obtain ⟨-, ⟨rfl, rfl⟩ | ⟨tlp, k, rfl, -, hk, hbeat, hsof, hdw, hheaders, -⟩⟩ :=
      WriteSide.writeTlps_cases hpos hs
    · exact ⟨finished, some b, pending, sent, by rwa [Option.toList_none, List.append_nil]⟩
    · have hdwords : packetDwords ((Xbsv.packets l.sentBeats).2 ++ [tlp]) =
          c.headerDwords b.req ++ (sent ++ s.writeDataMimo.items.take k).map byteSwap := by
        rw [packetDwords, List.flatMap_append, List.flatMap_singleton, hdw, List.map_append,
          ← List.append_assoc]
        exact congrArg (· ++ _) hdws
      have hnext : (some b).toList ++ pending = b :: pending := rfl
      obtain ⟨finished', current', sent', hsends⟩ := h.beat hnext hbeat
        (by rw [hsof, decide_eq_false hne]) hdwords (by omega) (by rw [hheaders, h.headers])
      exact ⟨finished', current', pending, sent', hsends⟩

/-- A read request is sent between two packets. -/
lemma readReq (h : Sends l s finished current pending sent) {req : MemRequest 40} {tlp : TLPData}
    (hs : s.readReq c req = some (s', tlp)) :
    Sends { l with sentBeats := l.sentBeats ++ [tlp], readReqs := l.readReqs ++ [req] } s' finished current
      pending sent := by
  unfold WriteSide.readReq at hs
  split at hs
  · rename_i hidle
    simp only [bind, pure, Option.bind_eq_some_iff, Fifo.enq_eq_some, Option.some.injEq, Prod.mk.injEq] at hs
    obtain ⟨out, ⟨-, hout⟩, rfl, rfl⟩ := hs
    have hprog : s.writeInProgress = false := by simpa using hidle.1
    rw [h.inProgress, Option.isSome_eq_false_iff, Option.isNone_iff_eq_none] at hprog
    subst hprog
    have hpackets := packets_of_last l.sentBeats (c.readRequest_eof req)
    rw [(h.idle rfl).1, List.nil_append] at hpackets
    have hread := c.isWrite_readRequest req
    refine { h with fifo := ?_, packets := ?_, writes := ?_, reads := ?_, begun := ?_, idle := ?_, busy := ?_ }
    · show l.requested ++ out.items = _
      rw [hout, ← List.append_assoc, h.fifo]
    · intro p hp
      rw [hpackets] at hp
      rcases List.mem_append.mp hp with hp | hp
      · exact h.packets p hp
      · rw [List.mem_singleton.mp hp]
        refine ⟨⟨c.readRequest_sof req, fun t ht => ?_⟩, [], _, rfl, c.readRequest_eof req, fun t ht => ?_⟩
        · cases ht
        · cases ht
    · rw [hpackets, List.filter_append, List.filter_singleton, hread, Bool.cond_false, List.append_nil]
      exact h.writes
    · rw [hpackets, List.filter_append, List.filter_singleton, hread, List.flatten_append, h.reads,
        List.map_append]
      rfl
    · rw [hpackets]
      exact ⟨trivial, fun t ht => by cases ht⟩
    · intro _
      rw [hpackets]
      exact ⟨rfl, (h.idle rfl).2⟩
    · intro b hb
      cases hb
  · cases hs

/-- A beat is taken. -/
lemma request (h : Sends l s finished current pending sent) {tlp : TLPData}
    (hs : s.request = some (tlp, s')) :
    Sends { l with requested := l.requested ++ [tlp] } s' finished current pending sent := by
  simp only [WriteSide.request, bind, pure, Option.bind_eq_some_iff, Prod.exists, Fifo.deq_eq_some,
    Option.some.injEq, Prod.mk.injEq] at hs
  obtain ⟨tlp', out, hout, rfl, rfl⟩ := hs
  refine { h with fifo := ?_ }
  show l.requested ++ [tlp'] ++ out.items = _
  rw [List.append_assoc, List.singleton_append, ← hout, h.fifo]

/-- A request is reported as done. -/
lemma writeDone (h : Sends l s finished current pending sent) {tag : BitVec 6}
    (hs : s.writeDone = some (tag, s')) :
    Sends { l with writeDones := l.writeDones ++ [tag] } s' finished current pending sent := by
  simp only [WriteSide.writeDone, bind, pure, Option.bind_eq_some_iff, Prod.exists, Fifo.deq_eq_some,
    Option.some.injEq, Prod.mk.injEq] at hs
  obtain ⟨tag', doneTag, hdone, rfl, rfl⟩ := hs
  refine { h with done := ?_ }
  show l.writeDones ++ [tag'.setWidth 6] ++ doneTag.items.map _ = _
  rw [← h.done, hdone, List.map_cons, List.append_assoc, List.singleton_append]

/-- A write request comes in. -/
lemma writeReq (h : Sends l s finished current pending sent) {req : MemRequest 40}
    (hpos : 0 < (c.burstLen req).toNat) (hs : s.writeReq c req = some s') :
    Sends { l with bursts := l.bursts ++ [⟨req, []⟩] } s' finished current (pending ++ [⟨req, []⟩]) sent := by
  unfold WriteSide.writeReq at hs
  split at hs
  · rename_i hzero
    simp only [bind, pure, Option.bind_eq_some_iff, Fifo.enq_eq_some, Option.some.injEq] at hs
    obtain ⟨headers, ⟨-, hheaders⟩, tags, ⟨-, htags⟩, rfl⟩ := hs
    refine { h with bursts := ?_, lacks := ?_, headers := ?_, tags := ?_, data := ?_ }
    · show l.bursts ++ _ = _
      rw [h.bursts]
      simp only [List.append_assoc]
    · have hcount : ((c.burstLen req).setWidth 9).toNat = (c.burstLen req).toNat := by
        rw [BitVec.toNat_setWidth]
        exact Nat.mod_eq_of_lt (by have := (c.burstLen req).isLt; omega)
      have hlacks := h.lacks
      rw [hzero] at hlacks
      show Lacks ((c.burstLen req).setWidth 9).toNat _
      rw [hcount]
      exact hlacks.writeReq hpos
    · show headers.items = _
      rw [hheaders, h.headers, List.map_append]
      rfl
    · show tags.items = _
      rw [htags, h.tags]
      simp only [List.map_append, List.append_assoc]
      rfl
    · show _ ++ s.writeDataMimo.items = _
      rw [h.data]
      simp [Burst.words]
  · cases hs

/-- A beat of data comes in. It belongs to the last request, which has not been sent completely. -/
lemma writeData (h : Sends l s finished current pending sent) {d : ObjectData (32 * c.width.words)}
    (hs : s.writeData c d = some s') :
    ∃ current' pending', Sends { l with bursts := l.bursts.modifyLast (Burst.addBeat d) } s' finished current'
      pending' sent := by
  unfold WriteSide.writeData at hs
  split at hs
  · rename_i hready
    simp only [bind, pure, Option.bind_eq_some_iff, Fifo.enqN_eq_some, Option.some.injEq] at hs
    obtain ⟨q, ⟨-, hq⟩, rfl⟩ := hs
    have hgt : 0 < s.writeBurstCount.toNat := hready.1
    have hlacks := h.lacks
    rw [show s.writeBurstCount.toNat = (s.writeBurstCount - 1).toNat + 1 by
      rw [BitVec.toNat_sub_of_le (show (1 : BitVec 9) ≤ s.writeBurstCount from hgt)]
      exact (Nat.sub_add_cancel hgt).symm] at hlacks
    have hlacks' := hlacks.writeData d
    have hwords (b : Burst c) : (b.addBeat d).words = b.words ++ c.beatWords d := by
      unfold Burst.words Burst.addBeat
      rw [List.flatMap_append, List.flatMap_singleton]
    rcases List.eq_nil_or_concat' pending with rfl | ⟨init, last, rfl⟩
    · cases current with
      | none =>
        -- all requests have their data
        exfalso
        have hbs := h.bursts
        simp only [Option.toList_none, List.append_nil] at hbs
        rcases List.eq_nil_or_concat' finished with rfl | ⟨init, last, rfl⟩
        · exact absurd (hlacks.nil hbs) (by omega)
        · have hlast := hlacks.last last (by rw [hbs]; simp)
          have hwhole := h.whole last (by simp)
          omega
      | some b =>
        refine ⟨some (b.addBeat d), [], { h with
          bursts := ?_, lacks := hlacks', idle := fun hn => (by cases hn), busy := ?_, tags := ?_, data := ?_ }⟩
        · show l.bursts.modifyLast _ = _
          rw [h.bursts]
          simp only [Option.toList_some, List.append_nil, List.modifyLast_concat]
        · intro b' hb'
          cases hb'
          exact h.busy b rfl
        · exact h.tags
        · show sent ++ q.items = _
          have hdata := h.data
          simp only [Option.toList_some, List.append_nil, List.flatMap_singleton] at hdata ⊢
          rw [hq, ← List.append_assoc, hdata, hwords]
    · refine ⟨current, init ++ [last.addBeat d], { h with
        bursts := ?_, lacks := hlacks', headers := ?_, tags := ?_, data := ?_ }⟩
      · show l.bursts.modifyLast _ = _
        rw [h.bursts, ← List.append_assoc, ← List.append_assoc, List.modifyLast_concat, List.append_assoc,
          List.append_assoc]
      · show s.tlpWriteHeaderFifo.items = _
        rw [h.headers]
        simp only [List.map_append, List.map_cons, List.map_nil, Burst.addBeat]
      · show s.writeTag.items = _
        rw [h.tags]
        simp only [List.map_append, List.map_cons, List.map_nil, Burst.addBeat]
      · show sent ++ q.items = _
        have hdata := h.data
        simp only [List.flatMap_append, List.flatMap_singleton, ← List.append_assoc] at hdata ⊢
        rw [hq, ← List.append_assoc, hdata, hwords, List.append_assoc]
  · cases hs

/-- The packets that have been sent are those of the first requests. -/
lemma length_writePackets {tr : List (Event c)} (h : Sends (log tr) s finished current pending sent) :
    (writePackets tr).length = finished.length := by
  have hlen := congrArg List.length h.writes
  rwa [List.length_map, List.length_map] at hlen

/-- The data of the packet that has begun are the first of its request. -/
lemma sent_prefix {tr : List (Event c)} {b : Burst c} (h : Sends (log tr) s finished (some b) pending sent) :
    sent <+: b.words := by
  have hbs : Xbsv.bursts tr = finished ++ b :: pending := h.bursts
  have hdata : sent ++ s.writeDataMimo.items = (b :: pending).flatMap Burst.words := h.data
  obtain ⟨-, -, hsize, -⟩ := h.busy b rfl
  have hpre := h.lacks.prefix_words hbs hdata (n := 0) (by omega)
  rwa [List.take_zero, List.append_nil] at hpre

/-- What has been sent. -/
lemma emits {tr : List (Event c)} (h : Sends (log tr) s finished current pending sent) : Emits tr s := by
  have hbs : Xbsv.bursts tr = finished ++ (current.toList ++ pending) := h.bursts
  have hwrites : (writePackets tr).map packetDwords = finished.map Burst.dwords := h.writes
  have hlen := h.length_writePackets
  have hsent : sentBursts tr = finished := by
    unfold sentBursts
    rw [hlen, hbs, List.take_left']
    rfl
  have hdwords {β : Type} (f : List (BitVec 32) → β) :
      (writePackets tr).map (fun p => f (packetDwords p)) = finished.map fun b => f b.dwords := by
    have hmap := congrArg (List.map f) hwrites
    rwa [List.map_map, List.map_map] at hmap
  constructor
  case fifo => exact h.fifo
  case packets => exact h.packets
  case begun => exact h.begun
  case reads => exact h.reads
  case length => rw [hsent, hlen]
  case header =>
    rw [hsent]
    refine (hdwords fun ds => ds.take (headerLength ds)).trans (List.map_congr_left fun b _ => ?_)
    exact b.take_dwords
  case payload =>
    rw [hsent]
    refine (hdwords fun ds => ds.drop (headerLength ds)).trans (List.map_congr_left fun b _ => ?_)
    exact b.drop_dwords
  case lengthOf =>
    intro p hp
    have hmem : packetDwords p ∈ finished.map Burst.dwords := by
      rw [← hwrites]
      exact List.mem_map_of_mem hp
    obtain ⟨b, hb, heq⟩ := List.mem_map.mp hmem
    unfold payload
    rw [← heq, b.drop_dwords, List.length_map, b.length_words, h.whole b hb]
    exact c.lengthOf_headerDwords b.req _
  case whole =>
    rw [hsent]
    exact h.whole
  case next =>
    intro hne
    cases current with
    | none => exact absurd (h.idle rfl).1 hne
    | some b =>
      refine ⟨b, ?_, ?_⟩
      · rw [hlen, hbs, List.getElem?_append_right (Nat.le_refl _), Nat.sub_self]
        rfl
      · obtain ⟨-, hdws, -⟩ := h.busy b rfl
        show packetDwords (Xbsv.packets (log tr).sentBeats).2 <+: b.dwords
        rw [hdws]
        exact (List.prefix_append_right_inj _).mpr (h.sent_prefix.map byteSwap)
  case done =>
    rw [hsent]
    exact h.done

/-- A step, in which a write request that comes in has data. -/
lemma step {tr es : List (Event c)} {e e' : MemSlaveEngine} {a : Action c}
    (h : Sends (log tr) e.writeSide finished current pending sent)
    (hpos : ∀ req, a = .writeReq req → 0 < (c.burstLen req).toNat)
    (hs : (memSlaveEngine c).step e a = some (e', es)) :
    ∃ finished' current' pending' sent',
      Sends (log (tr ++ es)) e'.writeSide finished' current' pending' sent' := by
  cases a with
  | writeReq req =>
    simp only [memSlaveEngine, bind, pure, Option.bind_eq_some_iff, Option.some.injEq, Prod.mk.injEq] at hs
    obtain ⟨w, hw, rfl, rfl⟩ := hs
    rw [log_concat]
    exact ⟨_, _, _, _, h.writeReq (hpos req rfl) hw⟩
  | writeData d =>
    simp only [memSlaveEngine, bind, pure, Option.bind_eq_some_iff, Option.some.injEq, Prod.mk.injEq] at hs
    obtain ⟨w, hw, rfl, rfl⟩ := hs
    rw [log_concat]
    obtain ⟨current', pending', hsends⟩ := h.writeData hw
    exact ⟨_, current', pending', _, hsends⟩
  | writeDone =>
    simp only [memSlaveEngine, bind, pure, Option.bind_eq_some_iff, Prod.exists, Option.some.injEq,
      Prod.mk.injEq] at hs
    obtain ⟨tag, w, hw, rfl, rfl⟩ := hs
    rw [log_concat]
    exact ⟨_, _, _, _, h.writeDone hw⟩
  | readReq req =>
    simp only [memSlaveEngine, bind, pure, Option.bind_eq_some_iff, Prod.exists, Option.some.injEq,
      Prod.mk.injEq] at hs
    obtain ⟨w, tlp, hw, rfl, rfl⟩ := hs
    rw [List.append_cons, log_concat, log_concat]
    exact ⟨_, _, _, _, h.readReq hw⟩
  | request =>
    simp only [memSlaveEngine, bind, pure, Option.bind_eq_some_iff, Prod.exists, Option.some.injEq,
      Prod.mk.injEq] at hs
    obtain ⟨tlp, w, hw, rfl, rfl⟩ := hs
    rw [log_concat]
    exact ⟨_, _, _, _, h.request hw⟩
  | writeHeaderTlp =>
    simp only [memSlaveEngine, bind, pure, Option.bind_eq_some_iff, Prod.exists, Option.some.injEq,
      Prod.mk.injEq] at hs
    obtain ⟨w, o, hw, rfl, rfl⟩ := hs
    rw [log_append_sent]
    exact h.writeHeaderTlp hw
  | writeTlps stale =>
    simp only [memSlaveEngine, bind, pure, Option.bind_eq_some_iff, Prod.exists, Option.some.injEq,
      Prod.mk.injEq] at hs
    obtain ⟨w, o, hw, rfl, rfl⟩ := hs
    rw [log_append_sent]
    exact h.writeTlps hw
  | response tlp =>
    simp only [memSlaveEngine, bind, pure, Option.bind_eq_some_iff, Option.some.injEq, Prod.mk.injEq] at hs
    obtain ⟨r, -, rfl, rfl⟩ := hs
    rw [log_concat]
    exact ⟨_, _, _, _, h⟩
  | readData =>
    simp only [memSlaveEngine, bind, pure, Option.bind_eq_some_iff, Prod.exists, Option.some.injEq,
      Prod.mk.injEq] at hs
    obtain ⟨data, tag, r, -, rfl, rfl⟩ := hs
    rw [log_concat]
    exact ⟨_, _, _, _, h⟩
  | _ =>
    simp only [memSlaveEngine, bind, pure, Option.bind_eq_some_iff, Option.some.injEq, Prod.mk.injEq] at hs
    obtain ⟨r, -, rfl, rfl⟩ := hs
    rw [List.append_nil]
    exact ⟨_, _, _, _, h⟩

end Sends

/-- Every write request that comes in asks for at least one beat. -/
def SlaveConfig.HasData (c : SlaveConfig) (_ : MemSlaveEngine) : Action c → Prop
  | .writeReq req => 0 < (c.burstLen req).toNat
  | _ => True

instance (c : SlaveConfig) (s : MemSlaveEngine) (a : Action c) : Decidable (c.HasData s a) := by
  cases a <;> unfold SlaveConfig.HasData <;> infer_instance

/-- The invariant of runs. -/
lemma exists_sends {tr : List (Event c)} {s : MemSlaveEngine}
    (h : ((memSlaveEngine c).guard c.HasData).Reaches .reset tr s) :
    ∃ finished current pending sent, Sends (log tr) s.writeSide finished current pending sent := by
  refine h.invariant (I := fun tr s => ∃ finished current pending sent,
    Sends (log tr) s.writeSide finished current pending sent) ⟨[], none, [], [], .reset⟩ ?_
  rintro tr s a s' es ⟨finished, current, pending, sent, hsends⟩ hs
  obtain ⟨hdata, hs⟩ := RuleSystem.guard_step.mp hs
  refine hsends.step (fun req ha => ?_) hs
  subst ha
  exact hdata

/-! ## Whole bursts -/

/-- The write requests that come in ask for whole beats, and at least one. -/
def SlaveConfig.WholeBeats (c : SlaveConfig) (_ : MemSlaveEngine) : Action c → Prop
  | .writeReq req => 0 < req.burstLen.toNat ∧ 4 * c.width.words ∣ req.burstLen.toNat
  | _ => True

instance (c : SlaveConfig) (s : MemSlaveEngine) (a : Action c) : Decidable (c.WholeBeats s a) := by
  cases a <;> unfold SlaveConfig.WholeBeats <;> infer_instance

/-- The number of beats, for a width that is a power of two. -/
lemma SlaveConfig.toNat_burstLen (hpow : ∃ k, c.width.words = 2 ^ k) (req : MemRequest 40) :
    (c.burstLen req).toNat = req.burstLen.toNat / (4 * c.width.words) := by
  obtain ⟨k, hk⟩ := hpow
  have hfour : 4 * c.width.words = 2 ^ (k + 2) := by
    rw [hk, pow_add]
    ring
  unfold burstLen BusWidth.beatShift
  rw [hfour, tlog_two_pow, BitVec.toNat_ushiftRight, Nat.shiftRight_eq_div_pow]

/-- A write request in a run has come in by `writeReq`. -/
lemma eq_writeReq_of_step {s s' : MemSlaveEngine} {a : Action c} {es : List (Event c)}
    (hs : (memSlaveEngine c).step s a = some (s', es)) {req : MemRequest 40} (hreq : .writeReq req ∈ es) :
    a = .writeReq req := by
  cases a with
  | writeReq req' =>
    simp only [memSlaveEngine, bind, pure, Option.bind_eq_some_iff, Option.some.injEq, Prod.mk.injEq] at hs
    obtain ⟨w, -, -, rfl⟩ := hs
    cases List.mem_singleton.mp hreq
    rfl
  | _ =>
    exfalso
    simp only [memSlaveEngine, bind, pure, Option.bind_eq_some_iff, Option.some.injEq, Prod.mk.injEq,
      Prod.exists] at hs
    first
      | obtain ⟨_, _, -, rfl⟩ := hs
        simp at hreq
      | obtain ⟨_, _, _, -, rfl⟩ := hs
        simp at hreq
      | obtain ⟨_, _, _, _, -, rfl⟩ := hs
        simp at hreq

/-- The requests of a run are those that have come in. -/
lemma writeReq_mem_of_mem_bursts {tr : List (Event c)} {b : Burst c} (hb : b ∈ bursts tr) :
    .writeReq b.req ∈ tr := by
  induction tr using List.reverseRecOn generalizing b with
  | nil => cases hb
  | append_singleton tr e ih =>
    rw [bursts_append] at hb
    rw [List.mem_append]
    cases e with
    | writeReq req =>
      rcases List.mem_append.mp hb with hb | hb
      · exact .inl (ih hb)
      · rw [List.mem_singleton.mp hb]
        exact .inr (List.mem_singleton_self _)
    | writeData d =>
      left
      have hb' : b ∈ (bursts tr).modifyLast (Burst.addBeat d) := hb
      rcases List.eq_nil_or_concat' (bursts tr) with hnil | ⟨init, last, hlast⟩
      · rw [hnil] at hb'
        cases hb'
      · rw [hlast, List.modifyLast_concat] at hb'
        rcases List.mem_append.mp hb' with hb' | hb'
        · exact ih (by rw [hlast]; exact List.mem_append_left _ hb')
        · rw [List.mem_singleton.mp hb']
          exact ih (b := last) (by rw [hlast]; simp)
    | _ => exact .inl (ih hb)

/-- **The stream of packets.** If the number of dwords in a beat of data is a power of two, then in every run
with write requests for whole beats the engine sends whole packets: read requests, and for each write request,
in order, a packet with its header and all its data, byte-swapped, as many as the header says. A request is
reported as done after the last beat of its packet.

**Proof sketch.** The queue of data holds what is left to send of the request whose packet has begun and then
the data of those that wait (`Sends.data`). Only the last request can lack data, so what the rules take from
the front of the queue belongs to the packet that has begun (`Lacks.prefix_words`). A header is sent only when
no packet has begun, and so is a read request. -/
theorem emits_of_whole (hpow : ∃ k, c.width.words = 2 ^ k) {tr : List (Event c)} {s : MemSlaveEngine}
    (h : ((memSlaveEngine c).guard c.WholeBeats).Reaches .reset tr s) :
    Emits tr s.writeSide ∧
      ∀ b ∈ sentBursts tr, b.beats.length * (4 * c.width.words) = b.req.burstLen.toNat := by
  have hwhole : ∀ req, .writeReq req ∈ tr →
      0 < req.burstLen.toNat ∧ 4 * c.width.words ∣ req.burstLen.toNat := by
    refine h.invariant (I := fun tr _ => ∀ req, .writeReq req ∈ tr →
      0 < req.burstLen.toNat ∧ 4 * c.width.words ∣ req.burstLen.toNat) (fun req hreq => by cases hreq) ?_
    intro tr s a s' es ih hs req hreq
    obtain ⟨hok, hs⟩ := RuleSystem.guard_step.mp hs
    rcases List.mem_append.mp hreq with hreq | hreq
    · exact ih req hreq
    · rw [eq_writeReq_of_step hs hreq] at hok
      exact hok
  have hdata : ((memSlaveEngine c).guard c.HasData).Reaches .reset tr s := by
    refine h.guard_mono fun s a ha => ?_
    cases a with
    | writeReq req =>
      show 0 < (c.burstLen req).toNat
      rw [SlaveConfig.toNat_burstLen hpow]
      exact Nat.div_pos (Nat.le_of_dvd ha.1 ha.2) (Nat.mul_pos (by decide) c.width.pos)
    | _ => trivial
  obtain ⟨finished, current, pending, sent, hsends⟩ := exists_sends hdata
  have hemits := hsends.emits
  refine ⟨hemits, fun b hb => ?_⟩
  have hdvd := (hwhole b.req (writeReq_mem_of_mem_bursts (List.mem_of_mem_take hb))).2
  rw [hemits.whole b hb, SlaveConfig.toNat_burstLen hpow, Nat.div_mul_cancel hdvd]

/-- A write of four dwords, a read, and another write of which the header and the first dword are sent. -/
def writesAndRead :=
  ((memSlaveEngine twoWords).guard twoWords.WholeBeats).run .reset
    [.writeReq ⟨0x1000, 16, 1⟩, .writeData ⟨0x0000000200000001, 0, false⟩, .writeHeaderTlp,
      .writeData ⟨0x0000000400000003, 0, true⟩, .request, .writeTlps fun _ => 0, .readReq ⟨0x2000, 8, 2⟩,
      .request, .request, .writeReq ⟨0x100000000, 8, 3⟩, .writeDone, .writeData ⟨0x0000000600000005, 0, true⟩,
      .writeHeaderTlp]

theorem emits_of_whole_writesAndRead :
    (writePackets writesAndRead.2).map payload = [[0x01000000, 0x02000000, 0x03000000, 0x04000000]] ∧
      writeDones writesAndRead.2 = [1] ∧ Emits writesAndRead.2 writesAndRead.1.writeSide ∧
      ∀ b ∈ sentBursts writesAndRead.2, b.beats.length * (4 * twoWords.width.words) = b.req.burstLen.toNat :=
  ⟨by decide +kernel, by decide +kernel, emits_of_whole ⟨1, rfl⟩ (RuleSystem.reaches_run _ _)⟩

/-- Beats of three dwords. The number of bytes in a beat is rounded up to 16 when beats are counted. -/
def threeWords : SlaveConfig := ⟨⟨3, by decide, by decide⟩, 0x0100, zeroDefaults⟩

/-- Two write requests for one beat each, whose headers are sent without data. -/
def emptyWrites :=
  ((memSlaveEngine threeWords).guard threeWords.WholeBeats).run .reset
    [.writeReq ⟨0x1000, 12, 1⟩, .writeHeaderTlp, .writeReq ⟨0x2000, 12, 2⟩, .writeHeaderTlp]

/-- The first header has no `eof`, so that the second stands within its packet. -/
theorem not_emits_emptyWrites :
    ¬ ∀ (c : SlaveConfig) (tr : List (Event c)) (s : MemSlaveEngine),
      ((memSlaveEngine c).guard c.WholeBeats).Reaches .reset tr s →
        Emits tr s.writeSide ∧
          ∀ b ∈ sentBursts tr, b.beats.length * (4 * c.width.words) = b.req.burstLen.toNat := by
  intro h
  have hbegun := (h threeWords emptyWrites.2 emptyWrites.1 (RuleSystem.reaches_run _ _)).1.begun.1
  have hsofs : ((Xbsv.packets (sentBeats emptyWrites.2)).2.map TLPData.sof) = [true, true] := by
    decide +kernel
  revert hbegun hsofs
  cases (Xbsv.packets (sentBeats emptyWrites.2)).2 with
  | nil => exact fun _ h => by cases h
  | cons t ts =>
    intro hbegun hsofs
    rw [List.map_cons, List.cons.injEq] at hsofs
    obtain ⟨t', ht', htrue⟩ := List.mem_map.mp (by rw [hsofs.2]; exact List.mem_singleton_self true :
      true ∈ ts.map TLPData.sof)
    rw [hbegun.2 t' ht'] at htrue
    cases htrue

end Xbsv
