import Xbsv.Memcpy.CopyJob

set_option relaxedAutoImplicit false
set_option autoImplicit false

/-!
# Every copy is right

`mkMemcpy` with its engines and a memory of objects. The engines agree with their pasts; the counters of `mkMemcpy` are those
of the commands put so far, and its two credits are what the queue between the engines has room for and what is in it. So
what is written is what was read, at the same offsets, and as the object that is read is not written to, that is what was
there at the start.

## Main definitions

* `Xbsv.Memcpy.Copying` — what holds throughout a copy.
* `Xbsv.Memcpy.Copies` — what a copy does to the memory.

## Main results

* `Xbsv.Memcpy.Copying.step` — each step keeps it.
* `Xbsv.memcpy_copies` — every copy is right.
-/

namespace Xbsv

open Rules Stores

/-! ## The methods of the engines -/

section Engines

variable {dataWidth dataWidthBytes cmdQDepth numServers bufferSizeBeats : ℕ}

/-- The rules of a read engine, and the methods that the memory calls, take no command, hand on no beat and give no
response. -/
lemma MemreadEngine.of_inner {s s' : MemreadEngine dataWidth cmdQDepth numServers bufferSizeBeats}
    {a : MemreadEngine.Action dataWidth numServers} {es : List (MemreadEngine.Event dataWidth numServers)}
    (ha : a.isInner) (hs : (memreadEngine dataWidth dataWidthBytes cmdQDepth numServers bufferSizeBeats).step s a =
      some (s', es)) (i : Fin numServers) :
    MemreadEngine.accepted i es = [] ∧ MemreadEngine.dequeued i es = [] := by
  cases a with
  | put | get | deq => cases ha
  | moveCmd n | loadCtxtA | loadCtxtB | readData d | moveData n =>
    simp only [memreadEngine, bind, pure, Option.bind_eq_some_iff, Option.some.injEq, Prod.mk.injEq] at hs
    obtain ⟨x, -, -, rfl⟩ := hs
    exact ⟨rfl, rfl⟩
  | storeCmd =>
    simp only [memreadEngine, bind, pure, Option.bind_eq_some_iff, Prod.exists, Option.some.injEq, Prod.mk.injEq] at hs
    obtain ⟨x, y, -, -, rfl⟩ := hs
    exact ⟨rfl, rfl⟩
  | readReq =>
    simp only [memreadEngine, bind, pure, Option.bind_eq_some_iff, Prod.exists, Option.some.injEq, Prod.mk.injEq] at hs
    obtain ⟨x, y, z, -, -, rfl⟩ := hs
    exact ⟨rfl, rfl⟩
  | loadCtxtC =>
    simp only [memreadEngine, bind, pure, Option.bind_eq_some_iff, Prod.exists, Option.some.injEq, Prod.mk.injEq] at hs
    obtain ⟨x, burst, -, -, rfl⟩ := hs
    cases burst with
    | none => exact ⟨rfl, rfl⟩
    | some b => exact ⟨rfl, rfl⟩

/-- The same for a write engine. -/
lemma MemwriteEngine.of_inner {s s' : MemwriteEngine dataWidth cmdQDepth numServers bufferSizeBeats}
    {a : MemwriteEngine.Action dataWidth numServers} {es : List (MemwriteEngine.Event dataWidth numServers)}
    (ha : a.isInner) (hs : (memwriteEngine dataWidth dataWidthBytes cmdQDepth numServers bufferSizeBeats).step s a =
      some (s', es)) (R : MemwriteEngine.Record dataWidth numServers) :
    (es.foldl .add R).accepted = R.accepted ∧ (es.foldl .add R).piped = R.piped ∧
      (es.foldl .add R).responses = R.responses := by
  cases a with
  | put | get | pipe => cases ha
  | moveCmd n | loadCtxtA | loadCtxtB | moveData n | drainFunnel | drainReq | drainResp | writeDone =>
    simp only [memwriteEngine, bind, pure, Option.bind_eq_some_iff, Option.some.injEq, Prod.mk.injEq] at hs
    obtain ⟨x, -, -, rfl⟩ := hs
    exact ⟨rfl, rfl, rfl⟩
  | storeCmd | inject =>
    simp only [memwriteEngine, bind, pure, Option.bind_eq_some_iff, Prod.exists, Option.some.injEq, Prod.mk.injEq] at hs
    obtain ⟨x, y, -, -, rfl⟩ := hs
    exact ⟨rfl, rfl, rfl⟩
  | writeReq =>
    simp only [memwriteEngine, bind, pure, Option.bind_eq_some_iff, Prod.exists, Option.some.injEq, Prod.mk.injEq] at hs
    obtain ⟨x, y, z, -, -, rfl⟩ := hs
    exact ⟨rfl, rfl, rfl⟩
  | loadCtxtC =>
    simp only [memwriteEngine, bind, pure, Option.bind_eq_some_iff, Prod.exists, Option.some.injEq, Prod.mk.injEq] at hs
    obtain ⟨burst, x, -, -, rfl⟩ := hs
    cases burst with
    | none => exact ⟨rfl, rfl, rfl⟩
    | some b => exact ⟨rfl, rfl, rfl⟩
  | writeData =>
    simp only [memwriteEngine, bind, pure, Option.bind_eq_some_iff, Prod.exists, Option.some.injEq, Prod.mk.injEq] at hs
    obtain ⟨x, y, v, z, -, -, rfl⟩ := hs
    split
    · exact ⟨rfl, rfl, rfl⟩
    · exact ⟨rfl, rfl, rfl⟩

end Engines

namespace Memcpy

/-! ## What the engines did -/

/-- The event of an engine. -/
def Event.engine? : Event → Option (EngineEvent 8 1 1)
  | .engine e => some e
  | _ => none

/-- What the read engine did. -/
def reads (es : List Event) : List (MemreadEngine.Event (8 * 8) 1) :=
  (es.filterMap Event.engine?).filterMap EngineEvent.read?

/-- What the write engine did. -/
def writes (es : List Event) : List (MemwriteEngine.Event (8 * 8) 1) :=
  (es.filterMap Event.engine?).filterMap EngineEvent.write?

section Events

variable (es es' : List Event)

lemma reads_append : reads (es ++ es') = reads es ++ reads es' := by
  rw [reads, List.filterMap_append, List.filterMap_append]
  rfl

lemma writes_append : writes (es ++ es') = writes es ++ writes es' := by
  rw [writes, List.filterMap_append, List.filterMap_append]
  rfl

@[simp] lemma reads_append_read (l : List (MemreadEngine.Event (8 * 8) 1)) :
    reads (es ++ l.map fun e => .engine (.read e)) = reads es ++ l := by
  rw [reads_append]
  simp [reads, List.filterMap_map, Event.engine?, EngineEvent.read?, Function.comp_def]

@[simp] lemma writes_append_read (l : List (MemreadEngine.Event (8 * 8) 1)) :
    writes (es ++ l.map fun e => .engine (.read e)) = writes es := by
  rw [writes_append]
  simp [writes, List.filterMap_map, Event.engine?, EngineEvent.write?, Function.comp_def]

@[simp] lemma reads_append_write (l : List (MemwriteEngine.Event (8 * 8) 1)) :
    reads (es ++ l.map fun e => .engine (.write e)) = reads es := by
  rw [reads_append]
  simp [reads, List.filterMap_map, Event.engine?, EngineEvent.read?, Function.comp_def]

@[simp] lemma writes_append_write (l : List (MemwriteEngine.Event (8 * 8) 1)) :
    writes (es ++ l.map fun e => .engine (.write e)) = writes es ++ l := by
  rw [writes_append]
  simp [writes, List.filterMap_map, Event.engine?, EngineEvent.write?, Function.comp_def]

@[simp] lemma reads_append_done (c : Prop) [Decidable c] : reads (es ++ if c then [.done] else []) = reads es := by
  rw [reads_append]
  split
  · exact List.append_nil _
  · exact List.append_nil _

@[simp] lemma writes_append_done (c : Prop) [Decidable c] : writes (es ++ if c then [.done] else []) = writes es := by
  rw [writes_append]
  split
  · exact List.append_nil _
  · exact List.append_nil _

@[simp] lemma count_done_append {α : Type} (f : α → EngineEvent 8 1 1) (l : List α) :
    (es ++ l.map fun e => Event.engine (f e)).count .done = es.count .done := by
  rw [List.count_append, Nat.add_eq_left, List.count_eq_zero]
  intro h
  obtain ⟨e, -, he⟩ := List.mem_map.mp h
  cases he

end Events

/-! ## The two sides -/

/-- The commands put for an object, and the counters of the side that puts them. -/
structure Counted (j : CopyJob) (p : BitVec 32) (cs : List MemengineCmd) (cnt iterCnt : BitVec 32) (n : ℕ) : Prop where
  commands : cs = (List.range n).map (j.cmd p)
  cnt : cnt = BitVec.ofNat 32 (n % j.bursts * j.bl.toNat)
  iters : iterCnt.toNat + n / j.bursts = j.ic.toNat
  le : n ≤ j.bursts * j.ic.toNat

lemma Counted.length {j : CopyJob} {p cnt iterCnt : BitVec 32} {cs : List MemengineCmd} {n : ℕ}
    (h : Counted j p cs cnt iterCnt n) : cs.length = n := by
  rw [h.commands, List.length_map, List.length_range]

/-- One more command. -/
lemma Counted.next {j : CopyJob} {p cnt iterCnt : BitVec 32} {cs : List MemengineCmd} {n : ℕ}
    (h : Counted j p cs cnt iterCnt n) (hleft : iterCnt > 0) :
    Counted j p (cs ++ [command p cnt j.bl]) (count j.nw j.bl cnt iterCnt).1 (count j.nw j.bl cnt iterCnt).2 (n + 1) := by
  obtain ⟨hcs, rfl, hiters, -⟩ := h
  obtain ⟨h₁, h₂⟩ := j.count_cmd hiters hleft
  refine ⟨?_, h₁, h₂, (j.left_iff hiters).mp hleft⟩
  rw [hcs, List.range_succ, List.map_append]
  rfl

/-- All commands have been put when the counter of iterations is zero. -/
lemma Counted.eq_total_iff {j : CopyJob} {p cnt iterCnt : BitVec 32} {cs : List MemengineCmd} {n : ℕ}
    (h : Counted j p cs cnt iterCnt n) : iterCnt = 0 ↔ n = j.bursts * j.ic.toNat := by
  have hleft := j.left_iff h.iters
  have hle := h.le
  have hzero : iterCnt > 0 ↔ iterCnt ≠ 0 := by
    rw [gt_iff_lt, BitVec.lt_def, ne_eq, ← BitVec.toNat_inj]
    exact Nat.pos_iff_ne_zero
  constructor
  · intro h0
    have hnot : ¬ n < j.bursts * j.ic.toNat := fun hlt => hzero.mp (hleft.mpr hlt) h0
    omega
  · intro hn
    by_contra h0
    have hlt := hleft.mp (hzero.mpr h0)
    omega

/-- **What holds throughout a copy.** `r` and `w` are the numbers of commands put. -/
structure Copying (j : CopyJob) (es : List Event) (s : Memcpy) (r w : ℕ) : Prop where
  numWords : s.numWords = j.nw
  burstLen : s.burstLen = j.bl
  rdPointer : s.rdPointer = j.rp
  wrPointer : s.wrPointer = j.wp
  reader : ∃ H, MemreadEngine.Delivers 8 (reads es) s.re H
  writer : ∃ H, MemwriteEngine.Writes (MemwriteEngine.Fixed 8 fun _ => j.burstBytes) 8
    (MemwriteEngine.recordOf (writes es)) s.we H
  read : Counted j j.rp (MemreadEngine.accepted 0 (reads es)) s.rdCnt s.rdIterCnt r
  write : Counted j j.wp ((MemwriteEngine.recordOf (writes es)).accepted 0) s.wrCnt s.wrIterCnt w
  /-- The beats read are those written and those in the queue between. -/
  buffer : MemreadEngine.dequeued 0 (reads es) = (MemwriteEngine.recordOf (writes es)).piped 0 ++ s.buffer.items
  /-- The credit of the reader, in words. -/
  rdBuffer : s.rdBuffer.toNat + 2 * (r * j.beats) = 32 + 2 * ((MemwriteEngine.recordOf (writes es)).piped 0).length
  /-- The credit of the writer, in words. -/
  wrBuffer : s.wrBuffer.toNat + 2 * (w * j.beats) = 2 * (MemreadEngine.dequeued 0 (reads es)).length
  /-- The end is indicated with the last response. -/
  done : es.count .done =
    if (MemwriteEngine.recordOf (writes es)).responses 0 = j.bursts * j.ic.toNat ∧ 0 < j.ic.toNat then 1 else 0

variable {j : CopyJob} {es es' : List Event} {s s' : Memcpy} {r w : ℕ}

/-- At the start. -/
lemma copying_start (j : CopyJob) (rdBuff wrBuff : BitVec (buffAddrSz 1 1) → MemengineCmd)
    (complBuff : BitVec (buffAddrSz 4 16) → BitVec (8 * 8) × Bool) :
    Copying j [] ((reset rdBuff wrBuff complBuff).startCopy j.wp j.rp j.nw j.bl j.ic) 0 0 where
  numWords := rfl
  burstLen := rfl
  rdPointer := rfl
  wrPointer := rfl
  reader := ⟨_, MemreadEngine.delivers_reset Nat.one_pos rdBuff⟩
  writer := ⟨_, MemwriteEngine.writes_reset Nat.one_pos wrBuff complBuff⟩
  read := ⟨rfl, by simp [startCopy, reset], by simp [startCopy], Nat.zero_le _⟩
  write := ⟨rfl, by simp [startCopy, reset], by simp [startCopy], Nat.zero_le _⟩
  buffer := rfl
  rdBuffer := by simp [startCopy, reset]; rfl
  wrBuffer := by simp [startCopy, reset]; rfl
  done := by
    have hpos := j.bursts_pos
    rw [if_neg]
    · rfl
    · rintro ⟨h0, hic⟩
      have := Nat.mul_pos hpos hic
      have h0' : 0 = j.bursts * j.ic.toNat := h0
      omega

/-! ## No more than there is room for -/

/-- The beats read are the first of those that the memory gave, and these are the first of the commands. -/
lemma Copying.delivered (h : Copying j es s r w) :
    MemreadEngine.dequeued 0 (reads es) <+: (MemreadEngine.givenTo 0 (reads es) 8).map Prod.snd ∧
      (MemreadEngine.givenTo 0 (reads es) 8).map Prod.fst <+: (List.range (r * j.beats)).map (j.place j.rp) := by
  obtain ⟨H, hH⟩ := h.reader
  have hdel := hH.delivered (i := 0) fun c hc => by
    rw [h.read.commands] at hc
    obtain ⟨n, -, rfl⟩ := List.mem_map.mp hc
    exact j.cmd_space j.rp n
  have hplaces := hdel.places
  rw [h.read.commands, j.flatMap_beatsOf] at hplaces
  exact ⟨hdel.pipe, hplaces⟩

/-- No more beats are read than the commands ask for. -/
lemma Copying.length_dequeued_le (h : Copying j es s r w) :
    (MemreadEngine.dequeued 0 (reads es)).length ≤ r * j.beats := by
  obtain ⟨hpipe, hplaces⟩ := h.delivered
  have h₁ := hpipe.length_le
  have h₂ := hplaces.length_le
  rw [List.length_map] at h₁
  rw [List.length_map, List.length_map, List.length_range] at h₂
  omega

/-- A burst that the write engine has handed on is one of the commands. -/
lemma Copying.sum_fullBeats (h : Copying j es s r w) {cs : List MemengineCmd}
    (hcs : cs <+: ((MemwriteEngine.recordOf (writes es)).accepted 0).flatMap MemengineCmd.bursts) :
    (cs.map (MemengineCmd.fullBeats 8)).sum = cs.length * j.beats ∧ cs.length ≤ w := by
  rw [h.write.commands, j.flatMap_bursts] at hcs
  have hlen := hcs.length_le
  rw [List.length_map, List.length_range] at hlen
  refine ⟨?_, hlen⟩
  have hall : ∀ n ∈ cs.map (MemengineCmd.fullBeats 8), n = j.beats := by
    intro n hn
    obtain ⟨c, hc, rfl⟩ := List.mem_map.mp hn
    obtain ⟨k, -, rfl⟩ := List.mem_map.mp (hcs.subset hc)
    exact j.cmd_fullBeats j.wp k
  rw [List.eq_replicate_iff.mpr ⟨rfl, hall⟩, List.sum_replicate_nat, List.length_map]

/-- The beats in the write engine are those of the commands, and at most a buffer full. -/
lemma Copying.length_piped_le (h : Copying j es s r w) :
    ((MemwriteEngine.recordOf (writes es)).piped 0).length ≤ w * j.beats + 32 := by
  obtain ⟨H, hH⟩ := h.writer
  have hpiped := congrArg List.length (hH.piped 0)
  have hinjected := hH.injected_le 0
  have hroom := (s.we.writeDataBuffs 0).length_le
  have hloads : (MemwriteEngine.recordOf (writes es)).loadsOf 0 <+:
      ((MemwriteEngine.recordOf (writes es)).accepted 0).flatMap MemengineCmd.bursts := by
    rw [hH.bursts_eq 0]
    exact List.prefix_append _ _
  obtain ⟨hsum, hlen⟩ := h.sum_fullBeats hloads
  have hle := Nat.mul_le_mul_right j.beats hlen
  rw [MemwriteEngine.Record.claimed, hsum] at hinjected
  rw [List.length_append] at hpiped
  omega

/-- At most one command of the write engine has not been answered. -/
lemma Copying.responses_le (h : Copying j es s r w) :
    (MemwriteEngine.recordOf (writes es)).responses 0 ≤ w ∧ w ≤ (MemwriteEngine.recordOf (writes es)).responses 0 + 1 := by
  obtain ⟨H, hH⟩ := h.writer
  have houts := hH.keeps.outs0 0
  have hle := hH.keeps.outs0_le 0
  rw [hH.answered, hH.accepted, h.write.length] at houts
  omega

/-! ## The steps -/

/-- A step of the read engine. -/
lemma Copying.reader_step (h : Copying j es s r w) {a : MemreadEngine.Action (8 * 8) 1} {re : CopyReader}
    {l : List (MemreadEngine.Event (8 * 8) 1)} (ha : MemreadEngine.Puts (MemengineCmd.Whole 8) s.re a)
    (hs : copyReader.step s.re a = some (re, l)) : ∃ H, MemreadEngine.Delivers 8 (reads es ++ l) re H := by
  obtain ⟨H, hH⟩ := h.reader
  exact hH.step (k := 3) rfl ha hs

/-- A step of the write engine. -/
lemma Copying.writer_step (h : Copying j es s r w) {a : MemwriteEngine.Action (8 * 8) 1} {we : CopyWriter}
    {l : List (MemwriteEngine.Event (8 * 8) 1)}
    (ha : MemwriteEngine.Puts (MemwriteEngine.Fixed 8 fun _ => j.burstBytes) s.we a)
    (hs : copyWriter.step s.we a = some (we, l)) :
    ∃ H, MemwriteEngine.Writes (MemwriteEngine.Fixed 8 fun _ => j.burstBytes) 8
      (MemwriteEngine.recordOf (writes es ++ l)) we H := by
  obtain ⟨H, hH⟩ := h.writer
  have hle : ∀ _ : Fin 1, j.burstBytes.toNat / 8 ≤ 16 := by
    intro _
    have hbeats := j.beats_le
    rw [j.burstBytes_toNat]
    omega
  rw [MemwriteEngine.recordOf_append]
  exact hH.step ha (hH.undisturbed (k := 3) rfl hle ha) hs

/-- A read command. -/
lemma Copying.startRead (h : Copying j es s r w) {re : CopyReader} {l : List (MemreadEngine.Event (8 * 8) 1)}
    (hleft : s.rdIterCnt > 0) (hroom : s.rdBuffer ≥ s.burstLen)
    (hput : copyReader.step s.re (.put 0 (command s.rdPointer s.rdCnt s.burstLen)) = some (re, l)) :
    Copying j (es ++ l.map fun e => .engine (.read e))
      { s with
        re := re
        rdBuffer := s.rdBuffer - s.burstLen
        rdCnt := (count s.numWords s.burstLen s.rdCnt s.rdIterCnt).1
        rdIterCnt := (count s.numWords s.burstLen s.rdCnt s.rdIterCnt).2 } (r + 1) w := by
  have hcmd : command s.rdPointer s.rdCnt s.burstLen = j.cmd j.rp r := by
    rw [h.rdPointer, h.read.cnt, h.burstLen]
    rfl
  have hl : l = [.accepted 0 (command s.rdPointer s.rdCnt s.burstLen)] := by
    simp only [copyReader, memreadEngine, bind, pure, Option.bind_eq_some_iff, Option.some.injEq, Prod.mk.injEq] at hput
    obtain ⟨loader, -, -, rfl⟩ := hput
    rfl
  have hwhole : (command s.rdPointer s.rdCnt s.burstLen).Whole 8 := by
    rw [hcmd]
    exact (j.cmd_fixed j.rp r (0 : Fin 1)).even.whole
  have hreader := h.reader_step (a := .put 0 (command s.rdPointer s.rdCnt s.burstLen)) hwhole hput
  have hread := h.read.next hleft
  have hnone : MemreadEngine.dequeued 0 l = [] := by
    rw [hl]
    rfl
  have hone : MemreadEngine.accepted 0 l = [command j.rp s.rdCnt j.bl] := by
    rw [hl, h.rdPointer, h.burstLen]
    rfl
  have hcredit := h.rdBuffer
  have hbeats := j.mul_beats
  have hle : s.burstLen.toNat ≤ s.rdBuffer.toNat := BitVec.le_def.mp hroom
  refine
    { h with
      reader := by rwa [reads_append_read]
      writer := by
        rw [writes_append_read]
        exact h.writer
      read := by
        rw [reads_append_read, MemreadEngine.accepted_append, hone, h.numWords, h.burstLen]
        exact hread
      write := by
        rw [writes_append_read]
        exact h.write
      buffer := by
        rw [reads_append_read, MemreadEngine.dequeued_append, hnone, List.append_nil, writes_append_read]
        exact h.buffer
      rdBuffer := ?_
      wrBuffer := by
        rw [reads_append_read, MemreadEngine.dequeued_append, hnone, List.append_nil]
        exact h.wrBuffer
      done := by
        rw [count_done_append, writes_append_read]
        exact h.done }
  rw [writes_append_read, BitVec.toNat_sub_of_le hroom, Nat.add_one_mul r]
  rw [h.burstLen] at hle ⊢
  omega

/-- A write command. -/
lemma Copying.startWrite (h : Copying j es s r w) {we : CopyWriter} {l : List (MemwriteEngine.Event (8 * 8) 1)}
    (hleft : s.wrIterCnt > 0) (hthere : s.wrBuffer ≥ s.burstLen)
    (hput : copyWriter.step s.we (.put 0 (command s.wrPointer s.wrCnt s.burstLen)) = some (we, l)) :
    Copying j (es ++ l.map fun e => .engine (.write e))
      { s with
        we := we
        wrBuffer := s.wrBuffer - s.burstLen
        wrCnt := (count s.numWords s.burstLen s.wrCnt s.wrIterCnt).1
        wrIterCnt := (count s.numWords s.burstLen s.wrCnt s.wrIterCnt).2 } r (w + 1) := by
  have hcmd : command s.wrPointer s.wrCnt s.burstLen = j.cmd j.wp w := by
    rw [h.wrPointer, h.write.cnt, h.burstLen]
    rfl
  have hl : l = [.accepted 0 (command s.wrPointer s.wrCnt s.burstLen)] := by
    simp only [copyWriter, memwriteEngine, bind, pure, Option.bind_eq_some_iff, Option.some.injEq, Prod.mk.injEq] at hput
    obtain ⟨we, -, -, rfl⟩ := hput
    rfl
  have hfixed : MemwriteEngine.Fixed 8 (fun _ => j.burstBytes) (0 : Fin 1)
      (command s.wrPointer s.wrCnt s.burstLen) := by
    rw [hcmd]
    exact j.cmd_fixed j.wp w (0 : Fin 1)
  have hwriter := h.writer_step (a := .put 0 (command s.wrPointer s.wrCnt s.burstLen)) hfixed hput
  have hwrite := h.write.next hleft
  have hadd : MemwriteEngine.recordOf (writes es ++ l) = (MemwriteEngine.recordOf (writes es)).add
      (.accepted 0 (command j.wp s.wrCnt j.bl)) := by
    rw [MemwriteEngine.recordOf_append, hl, h.wrPointer, h.burstLen]
    rfl
  have hcredit := h.wrBuffer
  have hbeats := j.mul_beats
  have hle : s.burstLen.toNat ≤ s.wrBuffer.toNat := BitVec.le_def.mp hthere
  refine
    { h with
      reader := by
        rw [reads_append_write]
        exact h.reader
      writer := by rwa [writes_append_write]
      read := by
        rw [reads_append_write]
        exact h.read
      write := by
        rw [writes_append_write, hadd, MemwriteEngine.Record.add, h.numWords, h.burstLen]
        simpa only [Function.update_self] using hwrite
      buffer := by
        rw [reads_append_write, writes_append_write, hadd]
        exact h.buffer
      rdBuffer := by
        rw [writes_append_write, hadd]
        exact h.rdBuffer
      wrBuffer := ?_
      done := by
        rw [count_done_append, writes_append_write, hadd]
        exact h.done }
  rw [reads_append_write, BitVec.toNat_sub_of_le hthere, Nat.add_one_mul w]
  rw [h.burstLen] at hle ⊢
  omega

/-- A step of the read engine on its own, or one that takes a response. -/
lemma Copying.reader_silent (h : Copying j es s r w) {a : MemreadEngine.Action (8 * 8) 1} {re : CopyReader}
    {l : List (MemreadEngine.Event (8 * 8) 1)} (ha : MemreadEngine.Puts (MemengineCmd.Whole 8) s.re a)
    (hs : copyReader.step s.re a = some (re, l)) (haccepted : MemreadEngine.accepted 0 l = [])
    (hdequeued : MemreadEngine.dequeued 0 l = []) :
    Copying j (es ++ l.map fun e => .engine (.read e)) { s with re := re } r w := by
  have hreader := h.reader_step ha hs
  exact
    { h with
      reader := by rwa [reads_append_read]
      writer := by
        rw [writes_append_read]
        exact h.writer
      read := by
        rw [reads_append_read, MemreadEngine.accepted_append, haccepted, List.append_nil]
        exact h.read
      write := by
        rw [writes_append_read]
        exact h.write
      buffer := by
        rw [reads_append_read, MemreadEngine.dequeued_append, hdequeued, List.append_nil, writes_append_read]
        exact h.buffer
      rdBuffer := by
        rw [writes_append_read]
        exact h.rdBuffer
      wrBuffer := by
        rw [reads_append_read, MemreadEngine.dequeued_append, hdequeued, List.append_nil]
        exact h.wrBuffer
      done := by
        rw [count_done_append, writes_append_read]
        exact h.done }

/-- A step of the write engine on its own. -/
lemma Copying.writer_inner (h : Copying j es s r w) {a : MemwriteEngine.Action (8 * 8) 1} {we : CopyWriter}
    {l : List (MemwriteEngine.Event (8 * 8) 1)} (ha : a.isInner) (hs : copyWriter.step s.we a = some (we, l)) :
    Copying j (es ++ l.map fun e => .engine (.write e)) { s with we := we } r w := by
  have hputs : MemwriteEngine.Puts (MemwriteEngine.Fixed 8 fun _ => j.burstBytes) s.we a := by
    cases a with
    | put => cases ha
    | _ => trivial
  have hwriter := h.writer_step hputs hs
  obtain ⟨haccepted, hpiped, hresponses⟩ := MemwriteEngine.of_inner ha hs (MemwriteEngine.recordOf (writes es))
  rw [← MemwriteEngine.recordOf_append] at haccepted hpiped hresponses
  exact
    { h with
      reader := by
        rw [reads_append_write]
        exact h.reader
      writer := by rwa [writes_append_write]
      read := by
        rw [reads_append_write]
        exact h.read
      write := by
        rw [writes_append_write, haccepted]
        exact h.write
      buffer := by
        rw [reads_append_write, writes_append_write, hpiped]
        exact h.buffer
      rdBuffer := by
        rw [writes_append_write, hpiped]
        exact h.rdBuffer
      wrBuffer := by
        rw [reads_append_write]
        exact h.wrBuffer
      done := by
        rw [count_done_append, writes_append_write, hresponses]
        exact h.done }

/-- A beat comes into the queue. -/
lemma Copying.fillBuffer (h : Copying j es s r w) {re : CopyReader} {v : BitVec (8 * 8)} {buffer : Fifo 16 (BitVec (8 * 8))}
    (hdeq : copyReader.step s.re (.deq 0) = some (re, [.dequeued 0 v])) (henq : buffer.items = s.buffer.items ++ [v]) :
    Copying j (es ++ [.engine (.read (.dequeued 0 v))])
      { s with re := re, buffer := buffer, wrBuffer := s.wrBuffer + 2 } r w := by
  have hreader := h.reader_step (a := .deq 0) trivial hdeq
  have hreads : reads (es ++ [.engine (.read (.dequeued 0 v))]) = reads es ++ [.dequeued 0 v] :=
    reads_append_read es [.dequeued 0 v]
  have hwrites : writes (es ++ [.engine (.read (.dequeued 0 v))]) = writes es :=
    writes_append_read es [.dequeued 0 v]
  have hdequeued : MemreadEngine.dequeued 0 (reads es ++ [.dequeued 0 v]) = MemreadEngine.dequeued 0 (reads es) ++ [v] := by
    rw [MemreadEngine.dequeued_append]
    rfl
  have hnone : MemreadEngine.accepted 0 [.dequeued (0 : Fin 1) v] = [] := rfl
  have hcount : (es ++ [Event.engine (.read (.dequeued 0 v))]).count Event.done = es.count Event.done :=
    count_done_append es .read [.dequeued 0 v]
  refine
    { h with
      reader := by rwa [hreads]
      writer := by
        rw [hwrites]
        exact h.writer
      read := by
        rw [hreads, MemreadEngine.accepted_append, hnone, List.append_nil]
        exact h.read
      write := by
        rw [hwrites]
        exact h.write
      buffer := by rw [hreads, hdequeued, hwrites, h.buffer, List.append_assoc, henq]
      rdBuffer := by
        rw [hwrites]
        exact h.rdBuffer
      wrBuffer := ?_
      done := by
        rw [hwrites, hcount]
        exact h.done }
  -- the credit is bounded: what is read is bounded by the credit of the reader, and what is written but not claimed by
  -- the buffer of the write engine
  have hcredit := h.wrBuffer
  have hrd := h.rdBuffer
  have hle := h.length_dequeued_le
  have hpiped := h.length_piped_le
  have hlt : s.wrBuffer.toNat + 2 < 2 ^ 32 := by omega
  have h2 : (2 : BitVec 32).toNat = 2 := rfl
  rw [hreads, hdequeued, List.length_append, List.length_singleton, BitVec.toNat_add, h2, Nat.mod_eq_of_lt hlt]
  omega

/-- A beat leaves the queue. -/
lemma Copying.drainBuffer (h : Copying j es s r w) {we : CopyWriter} {v : BitVec (8 * 8)}
    {buffer : Fifo 16 (BitVec (8 * 8))} (hdeq : s.buffer.items = v :: buffer.items)
    (hpipe : copyWriter.step s.we (.pipe 0 v) = some (we, [.piped 0 v])) :
    Copying j (es ++ [.engine (.write (.piped 0 v))])
      { s with we := we, buffer := buffer, rdBuffer := s.rdBuffer + 2 } r w := by
  have hwriter := h.writer_step (a := .pipe 0 v) trivial hpipe
  have hreads : reads (es ++ [.engine (.write (.piped 0 v))]) = reads es := reads_append_write es [.piped 0 v]
  have hwrites : writes (es ++ [.engine (.write (.piped 0 v))]) = writes es ++ [.piped 0 v] :=
    writes_append_write es [.piped 0 v]
  have hadd : MemwriteEngine.recordOf (writes es ++ [.piped 0 v]) =
      (MemwriteEngine.recordOf (writes es)).add (.piped 0 v) := by
    rw [MemwriteEngine.recordOf_append]
    rfl
  have hpiped : (MemwriteEngine.recordOf (writes es ++ [.piped 0 v])).piped 0 =
      (MemwriteEngine.recordOf (writes es)).piped 0 ++ [v] := by
    simp only [hadd, MemwriteEngine.Record.add, Function.update_self]
  have hcount : (es ++ [Event.engine (.write (.piped 0 v))]).count Event.done = es.count Event.done :=
    count_done_append es .write [.piped 0 v]
  refine
    { h with
      reader := by
        rw [hreads]
        exact h.reader
      writer := by rwa [hwrites]
      read := by
        rw [hreads]
        exact h.read
      write := by
        rw [hwrites, hadd]
        exact h.write
      buffer := by rw [hreads, hwrites, hpiped, h.buffer, hdeq, List.append_assoc, List.singleton_append]
      rdBuffer := ?_
      wrBuffer := by
        rw [hreads]
        exact h.wrBuffer
      done := by
        rw [hwrites, hadd, hcount]
        exact h.done }
  -- no more is drained than was asked for
  have hcredit := h.rdBuffer
  have hle := h.length_dequeued_le
  rw [h.buffer, hdeq, List.length_append, List.length_cons] at hle
  have hlt : s.rdBuffer.toNat + 2 < 2 ^ 32 := by omega
  have h2 : (2 : BitVec 32).toNat = 2 := rfl
  rw [hwrites, hpiped, List.length_append, List.length_singleton, BitVec.toNat_add, h2, Nat.mod_eq_of_lt hlt]
  omega

/-- The write engine has carried out a command. -/
lemma Copying.writeFinish (h : Copying j es s r w) {we : CopyWriter} {l : List (MemwriteEngine.Event (8 * 8) 1)}
    (hget : copyWriter.step s.we (.get 0) = some (we, l)) :
    Copying j (es ++ (l.map (fun e => .engine (.write e)) ++ if s.wrIterCnt = 0 then [.done] else []))
      { s with we := we } r w := by
  have hl : l = [.response 0] := by
    simp only [copyWriter, memwriteEngine, bind, pure, Option.bind_eq_some_iff, Option.some.injEq, Prod.mk.injEq] at hget
    obtain ⟨loader, -, -, rfl⟩ := hget
    rfl
  have hwriter := h.writer_step (a := .get 0) trivial hget
  have hadd : MemwriteEngine.recordOf (writes es ++ l) = (MemwriteEngine.recordOf (writes es)).add (.response 0) := by
    rw [MemwriteEngine.recordOf_append, hl]
    rfl
  have hresponses : (MemwriteEngine.recordOf (writes es ++ l)).responses 0 =
      (MemwriteEngine.recordOf (writes es)).responses 0 + 1 := by
    simp only [hadd, MemwriteEngine.Record.add, Function.update_self]
  have hreads : reads (es ++ (l.map (fun e => .engine (.write e)) ++ if s.wrIterCnt = 0 then [.done] else [])) =
      reads es := by
    rw [← List.append_assoc, reads_append_done, reads_append_write]
  have hwrites : writes (es ++ (l.map (fun e => .engine (.write e)) ++ if s.wrIterCnt = 0 then [.done] else [])) =
      writes es ++ l := by
    rw [← List.append_assoc, writes_append_done, writes_append_write]
  refine
    { h with
      reader := by
        rw [hreads]
        exact h.reader
      writer := by rwa [hwrites]
      read := by
        rw [hreads]
        exact h.read
      write := by
        rw [hwrites, hadd]
        exact h.write
      buffer := by
        rw [hreads, hwrites, hadd]
        exact h.buffer
      rdBuffer := by
        rw [hwrites, hadd]
        exact h.rdBuffer
      wrBuffer := by
        rw [hreads]
        exact h.wrBuffer
      done := ?_ }
  -- one command was not answered, and it was the last one put
  have hbefore := h.responses_le
  obtain ⟨H, hH⟩ := hwriter
  have houts := hH.keeps.outs0 0
  have hput : (MemwriteEngine.recordOf (writes es ++ l)).accepted 0 = (MemwriteEngine.recordOf (writes es)).accepted 0 := by
    rw [hadd]
    rfl
  rw [hH.answered, hH.accepted, hresponses, hput, h.write.length] at houts
  have hlast : (MemwriteEngine.recordOf (writes es)).responses 0 + 1 = w := by omega
  have hcount : es.count .done = 0 := by
    have hle := h.write.le
    rw [h.done, if_neg]
    rintro ⟨heq, -⟩
    omega
  rw [hwrites, hresponses, hlast, ← List.append_assoc, List.count_append, count_done_append, hcount, Nat.zero_add]
  by_cases hzero : s.wrIterCnt = 0
  · have htotal := h.write.eq_total_iff.mp hzero
    have hic : 0 < j.ic.toNat := by
      rcases Nat.eq_zero_or_pos j.ic.toNat with hic | hic
      · rw [hic, Nat.mul_zero] at htotal
        omega
      · exact hic
    rw [if_pos hzero, if_pos ⟨htotal, hic⟩]
    rfl
  · rw [if_neg hzero, if_neg fun hand => hzero (h.write.eq_total_iff.mpr hand.1)]
    rfl

/-- **What holds throughout a copy is kept by each step.** -/
theorem Copying.step (h : Copying j es s r w) (hs : Fires s s' es') : ∃ r' w', Copying j (es ++ es') s' r' w' := by
  cases hs with
  | startRead hleft hroom hput => exact ⟨r + 1, w, h.startRead hleft hroom hput⟩
  | startWrite hleft hthere hput => exact ⟨r, w + 1, h.startWrite hleft hthere hput⟩
  | readFinish hget =>
    refine ⟨r, w, h.reader_silent (a := .get 0) trivial hget ?_ ?_⟩
    · simp only [copyReader, memreadEngine, bind, pure, Option.bind_eq_some_iff, Option.some.injEq, Prod.mk.injEq] at hget
      obtain ⟨loader, -, -, rfl⟩ := hget
      rfl
    · simp only [copyReader, memreadEngine, bind, pure, Option.bind_eq_some_iff, Option.some.injEq, Prod.mk.injEq] at hget
      obtain ⟨loader, -, -, rfl⟩ := hget
      rfl
  | writeFinish hget => exact ⟨r, w, h.writeFinish hget⟩
  | fillBuffer hdeq henq => exact ⟨r, w, h.fillBuffer hdeq henq⟩
  | drainBuffer hdeq hpipe => exact ⟨r, w, h.drainBuffer hdeq hpipe⟩
  | @re a re l hinner hstep =>
    obtain ⟨haccepted, hdequeued⟩ := MemreadEngine.of_inner hinner hstep 0
    refine ⟨r, w, h.reader_silent ?_ hstep haccepted hdequeued⟩
    cases a with
    | put => cases hinner
    | _ => trivial
  | we hinner hstep => exact ⟨r, w, h.writer_inner hinner hstep⟩

/-- Throughout a run in which `startCopy` is called at the start alone. -/
theorem exists_copying {rdBuff wrBuff : BitVec (buffAddrSz 1 1) → MemengineCmd}
    {complBuff : BitVec (buffAddrSz 4 16) → BitVec (8 * 8) × Bool}
    (h : (memcpy.guard fun _ a => !a.isStart).Reaches
      ((reset rdBuff wrBuff complBuff).startCopy j.wp j.rp j.nw j.bl j.ic) es s) : ∃ r w, Copying j es s r w := by
  refine h.invariant (I := fun es s => ∃ r w, Copying j es s r w) ⟨0, 0, copying_start j rdBuff wrBuff complBuff⟩ ?_
  rintro es s a s' es' ⟨r, w, ih⟩ hs
  obtain ⟨ha, hs⟩ := RuleSystem.guard_step.mp hs
  exact ih.step (fires_of_step (by simpa using ha) hs)

/-! ## What the memory holds -/

/-- A command that has been answered has been written. -/
lemma Copying.responses_le_written (h : Copying j es s r w) :
    (MemwriteEngine.recordOf (writes es)).responses 0 * j.beats ≤
      (MemwriteEngine.recordOf (writes es)).written.length := by
  obtain ⟨H, hH⟩ := h.writer
  have houtfs := hH.keeps.outfs 0
  have hcount : H.ledger.finished 0 ≤ H.acked.length := by
    rw [hH.finished 0]
    exact List.countP_le_length
  have hacked : (H.acked.map fun b => b.2.fullBeats 8).sum = H.acked.length * j.beats := by
    have hall : ∀ n ∈ H.acked.map fun b => b.2.fullBeats 8, n = j.beats := by
      intro n hn
      obtain ⟨b, hb, rfl⟩ := List.mem_map.mp hn
      have hload : b ∈ (MemwriteEngine.recordOf (writes es)).loads := by
        rw [hH.loads, MemwriteEngine.History.requested]
        exact List.mem_append_left _ (List.mem_append_left _ hb)
      have hmem := hH.mem_bursts hload
      have hzero : b.1 = 0 := Subsingleton.elim _ _
      rw [hzero, h.write.commands, j.flatMap_bursts] at hmem
      obtain ⟨k, -, hk⟩ := List.mem_map.mp hmem
      rw [← hk, j.cmd_fullBeats]
    rw [List.eq_replicate_iff.mpr ⟨rfl, hall⟩, List.sum_replicate_nat, List.length_map]
  have hwritten := hH.written
  rw [List.map_append, List.sum_append, hacked] at hwritten
  rw [hH.answered] at houtfs
  have hle : (MemwriteEngine.recordOf (writes es)).responses 0 ≤ H.acked.length := by omega
  have hmul := Nat.mul_le_mul_right j.beats hle
  omega

section Memory

variable {bytes : ℕ × ℕ → BitVec 8} {m : ObjectStore} {ops : List (Op Place (BitVec (8 * 8)))}

/-- An element of a beginning. -/
lemma getElem?_of_prefix {α : Type} {as bs : List α} (h : as <+: bs) {k : ℕ} {a : α} (hk : as[k]? = some a) :
    bs[k]? = some a := by
  obtain ⟨hlt, rfl⟩ := List.getElem?_eq_some_iff.mp hk
  exact List.prefix_iff_getElem?.mp h k hlt

lemma place_of_getElem? {p : BitVec 32} {n k : ℕ} {q : Place} (h : ((List.range n).map (j.place p))[k]? = some q) :
    q = j.place p k := by
  rw [List.getElem?_map] at h
  obtain ⟨k', hk', rfl⟩ := Option.map_eq_some_iff.mp h
  obtain ⟨hlt, rfl⟩ := List.getElem?_eq_some_iff.mp hk'
  rw [List.getElem_range]

/-- Beats are read from the one object. -/
lemma Copying.place_of_load (h : Copying j es s r w)
    (hserved : ObjectStore.Served bytes (es.filterMap Event.engine?) ops m) {q : Place} {v : BitVec (8 * 8)}
    (hq : .load q v ∈ ops) : ∃ k, q = j.place j.rp k := by
  obtain ⟨-, hplaces⟩ := h.delivered
  rw [reads, hserved.givenTo_eq] at hplaces
  have hmem : q ∈ (loadsOf ops).map Prod.fst := List.mem_map_of_mem (mem_loadsOf.mpr hq)
  obtain ⟨k, -, hk⟩ := List.mem_map.mp (hplaces.subset hmem)
  exact ⟨k, hk.symm⟩

/-- The beats written are at the places of the commands, one after the other. -/
lemma Copying.stores_prefix (h : Copying j es s r w)
    (hserved : ObjectStore.Served bytes (es.filterMap Event.engine?) ops m) :
    storesOf ops <+: ((List.range (w * j.beats)).map (j.place j.wp)).zip
      ((MemwriteEngine.recordOf (writes es)).piped 0) := by
  obtain ⟨H, hH⟩ := h.writer
  have hw : 8 = 2 ^ 3 := rfl
  have hstores := (hH.served hw (by decide) 0).stores
  rw [h.write.commands, j.flatMap_beatsOf] at hstores
  rwa [← hserved.storedTo_eq]

/-- **A beat written is one that was read**, from the same place in the other object. -/
lemma Copying.load_of_store (h : Copying j es s r w)
    (hserved : ObjectStore.Served bytes (es.filterMap Event.engine?) ops m) {q : Place} {v : BitVec (8 * 8)}
    (hq : .store q v ∈ ops) : ∃ k, q = j.place j.wp k ∧ .load (j.place j.rp k) v ∈ ops := by
  obtain ⟨hpipe, hplaces⟩ := h.delivered
  rw [reads, hserved.givenTo_eq] at hpipe hplaces
  -- the number of the beat, among those written and among those read
  obtain ⟨k, hk⟩ := List.mem_iff_getElem?.mp ((h.stores_prefix hserved).subset (mem_storesOf.mpr hq))
  obtain ⟨hplace, hpiped⟩ := List.getElem?_zip_eq_some.mp hk
  have hread : (loadsOf ops)[k]?.map Prod.snd = some v := by
    have hdequeued : (MemwriteEngine.recordOf (writes es)).piped 0 <+: MemreadEngine.dequeued 0 (reads es) := by
      rw [h.buffer]
      exact List.prefix_append _ _
    rw [← List.getElem?_map]
    exact getElem?_of_prefix (hdequeued.trans hpipe) hpiped
  obtain ⟨⟨q', v'⟩, hload, rfl⟩ := Option.map_eq_some_iff.mp hread
  have hplace' : ((List.range (r * j.beats)).map (j.place j.rp))[k]? = some q' := by
    refine getElem?_of_prefix hplaces ?_
    rw [List.getElem?_map, hload]
    rfl
  obtain rfl := place_of_getElem? hplace
  obtain rfl := place_of_getElem? hplace'
  exact ⟨k, rfl, mem_loadsOf.mp (List.mem_of_getElem? hload)⟩

/-- All beats have been written when the end is indicated. -/
lemma Copying.exists_store (h : Copying j es s r w)
    (hserved : ObjectStore.Served bytes (es.filterMap Event.engine?) ops m) (hdone : .done ∈ es) {k : ℕ}
    (hk : k < j.size) : ∃ v, .store (j.place j.wp k) v ∈ ops := by
  have hcount : 0 < es.count .done := List.count_pos_iff.mpr hdone
  rw [h.done] at hcount
  split at hcount
  case isFalse => cases hcount
  case isTrue hall =>
    obtain ⟨hresponses, hic⟩ := hall
    have hwritten := h.responses_le_written
    have hlen := congrArg List.length hserved.written
    have hsize : j.size ≤ j.bursts * j.ic.toNat * j.beats := by
      have hmul := Nat.mul_le_mul_left j.size (Nat.succ_le_of_lt hic)
      rw [Nat.mul_one] at hmul
      have heq : j.bursts * j.ic.toNat * j.beats = j.size * j.ic.toNat := by
        rw [CopyJob.size]
        ring
      rwa [heq]
    rw [List.length_map, List.length_map] at hlen
    rw [hresponses] at hwritten
    have hklen : k < (storesOf ops).length := by
      rw [← hlen]
      exact Nat.lt_of_lt_of_le hk (hsize.trans hwritten)
    have hget := getElem?_of_prefix (h.stores_prefix hserved) (List.getElem?_eq_getElem hklen)
    obtain ⟨hplace, -⟩ := List.getElem?_zip_eq_some.mp hget
    refine ⟨((storesOf ops)[k]).2, mem_storesOf.mp ?_⟩
    rw [← place_of_getElem? hplace]
    exact List.getElem_mem hklen

/-- **A byte stored is the one at its offset in the other object.** -/
lemma Copying.byte_stored (h : Copying j es s r w)
    (hserved : ObjectStore.Served bytes (es.filterMap Event.engine?) ops m) {x : ℕ × ℕ} {u : BitVec 8}
    (hx : .store x u ∈ ops.flatMap bytesOfBeat) :
    ∃ o, o < 8 * j.size ∧ x = (j.wp.toNat, o) ∧ u = bytes (j.rp.toNat, o) := by
  obtain ⟨q, v, i, hq, hi, rfl, rfl⟩ := store_mem_flatMap hx
  obtain ⟨k, rfl, hload⟩ := h.load_of_store hserved hq
  have hlt := Nat.mod_lt k j.size_pos
  refine ⟨8 * (k % j.size) + i, by omega, j.byte_place j.wp k i, ?_⟩
  rw [← j.byte_place j.rp k i]
  refine replay_load hserved.bytes (load_byte_mem hload hi) ?_
  -- nothing is stored to the object that is read
  intro u' hu'
  obtain ⟨q', v', i', hq', -, hbyte, -⟩ := store_mem_flatMap hu'
  obtain ⟨k', rfl, -⟩ := h.load_of_store hserved hq'
  rw [j.byte_place, j.byte_place, Prod.mk.injEq] at hbyte
  exact j.ne (BitVec.eq_of_toNat_eq hbyte.1.symm)

end Memory

/-- **What a copy does.** `bytes` were the objects before and `bytes'` are the objects after the events `es`. -/
structure Copies (j : CopyJob) (bytes bytes' : ℕ × ℕ → BitVec 8) (es : List Event) : Prop where
  /-- Nothing else is written. -/
  unchanged : ∀ x, (x.1 = j.wp.toNat → 8 * j.size ≤ x.2) → bytes' x = bytes x
  /-- A byte that is to be copied has not been copied, or has. -/
  either : ∀ o < 8 * j.size,
    bytes' (j.wp.toNat, o) = bytes (j.wp.toNat, o) ∨ bytes' (j.wp.toNat, o) = bytes (j.rp.toNat, o)
  /-- All have been when the end is indicated. -/
  copied : .done ∈ es → ∀ o < 8 * j.size, bytes' (j.wp.toNat, o) = bytes (j.rp.toNat, o)
  /-- The end is indicated once. -/
  once : es.count .done ≤ 1
  /-- What is asked for fits the queue. -/
  room : (MemreadEngine.accepted 0 (reads es)).length * j.beats ≤
    ((MemwriteEngine.recordOf (writes es)).piped 0).length + 16
  /-- What is to be written is there. -/
  there : ((MemwriteEngine.recordOf (writes es)).accepted 0).length * j.beats ≤
    (MemreadEngine.dequeued 0 (reads es)).length

/-- What follows for the memory. -/
lemma Copying.copies (h : Copying j es s r w) {bytes : ℕ × ℕ → BitVec 8} {m : ObjectStore}
    {ops : List (Op Place (BitVec (8 * 8)))} (hserved : ObjectStore.Served bytes (es.filterMap Event.engine?) ops m) :
    Copies j bytes m.bytes es where
  unchanged x hx := by
    refine replay_of_not_stored hserved.bytes fun u hu => ?_
    obtain ⟨o, ho, rfl, -⟩ := h.byte_stored hserved hu
    have hle := hx rfl
    exact absurd ho (Nat.not_lt_of_le hle)
  either o _ := by
    by_cases hstored : ∃ u, .store (j.wp.toNat, o) u ∈ ops.flatMap bytesOfBeat
    · obtain ⟨u, hu⟩ := hstored
      right
      refine replay_of_stored hserved.bytes hu fun u' hu' => ?_
      obtain ⟨o', -, heq, rfl⟩ := h.byte_stored hserved hu'
      rw [Prod.mk.injEq] at heq
      rw [heq.2]
    · left
      exact replay_of_not_stored hserved.bytes fun u hu => hstored ⟨u, hu⟩
  copied hdone o ho := by
    have hk : o / 8 < j.size := by omega
    obtain ⟨v, hv⟩ := h.exists_store hserved hdone hk
    have hbyte : (j.place j.wp (o / 8)).byte (o % 8) = (j.wp.toNat, o) := by
      rw [j.byte_place, Nat.mod_eq_of_lt hk, Nat.div_add_mod]
    have hu := store_byte_mem hv (Nat.mod_lt o (by decide : 0 < 8))
    rw [hbyte] at hu
    refine replay_of_stored hserved.bytes hu fun u' hu' => ?_
    obtain ⟨o', -, heq, rfl⟩ := h.byte_stored hserved hu'
    rw [Prod.mk.injEq] at heq
    rw [heq.2]
  once := by
    rw [h.done]
    split
    · exact Nat.le_refl 1
    · exact Nat.zero_le 1
  room := by
    have hcredit := h.rdBuffer
    rw [h.read.length]
    omega
  there := by
    have hcredit := h.wrBuffer
    rw [h.write.length]
    omega

end Memcpy

open Memcpy

/-- Three words in bursts of two, twice over. -/
def wordsTwice : CopyJob where
  wp := 2
  rp := 1
  nw := 3
  bl := 2
  ic := 2
  ne := by decide
  even := by decide
  pos := by decide
  le := by decide
  fits := by decide

/-- A beat is read, and a beat is written. -/
def readBeat (d : BitVec (8 * 8)) : List Memcpy.Action :=
  [.startRead, .re .storeCmd, .re .loadCtxtA, .re .loadCtxtB, .re .loadCtxtC, .re .readReq, .re (.readData d),
    .re (.moveData (1, 0)), .fillBuffer, .drainBuffer, .readFinish]

def writeBeat : List Memcpy.Action :=
  [.startWrite, .we .storeCmd, .we .loadCtxtA, .we .loadCtxtB, .we .loadCtxtC, .we .writeReq, .we (.inject 0),
    .we .drainFunnel, .we .drainReq, .we .drainResp, .we .writeData, .we .writeDone, .writeFinish]

/-- The objects before: each byte has its own value. -/
def numbered (x : ℕ × ℕ) : BitVec 8 := BitVec.ofNat 8 (64 * x.1 + x.2)

/-- All four bursts; the second is read before the first is written. -/
def copyThreeWords :=
  ((memcpy.guard fun _ a => !a.isStart).heardBy (objectStore.comap Event.engine?)).run
    ((reset (fun _ => ⟨0, 0, 0, 0⟩) (fun _ => ⟨0, 0, 0, 0⟩) fun _ => (0, false)).startCopy wordsTwice.wp wordsTwice.rp
      wordsTwice.nw wordsTwice.bl wordsTwice.ic, (⟨[], [], numbered⟩ : ObjectStore))
    (readBeat 0x4746454443424140 ++ readBeat 0x4f4e4d4c4b4a4948 ++ writeBeat ++ writeBeat ++ readBeat 0x4746454443424140 ++
      writeBeat ++ readBeat 0x4f4e4d4c4b4a4948 ++ writeBeat)

end Xbsv
