import Xbsv.Dma.Ram
import Xbsv.Engine.WriteCredits

set_option relaxedAutoImplicit false
set_option autoImplicit false

/-!
# Objects behind the engines

The memory that a read engine and a write engine see: an array of bytes for each object. It sends the beats of the requests
to read in the order of the requests, and puts the beats of the requests to write where they belong, in the order of these
requests; the two go on side by side.

## Main definitions

* `Xbsv.ObjectStore`, `Xbsv.objectStore` — the memory, which takes part in the steps of the engines.
* `Xbsv.ObjectStore.Served` — what it was asked for, and what it did.

## Main results

* `Xbsv.ObjectStore.served` — the beats are those that were asked for, in order.
-/

namespace Xbsv

open Rules Stores

/-- Where a beat begins: an object and an offset. -/
abbrev Place : Type := BitVec 32 × BitVec 40

/-- A byte of the beat at a place. -/
def Place.byte (p : Place) (k : ℕ) : ℕ × ℕ := (p.1.toNat, p.2.toNat + k)

/-- The memory, with the places of the beats that it was asked for and has not yet sent or got. -/
structure ObjectStore where
  loads : List Place
  stores : List Place
  bytes : ℕ × ℕ → BitVec 8

/-- The events of a read engine and of a write engine. -/
inductive EngineEvent (dataWidthBytes numReaders numWriters : ℕ)
  | read (e : MemreadEngine.Event (dataWidthBytes * 8) numReaders)
  | write (e : MemwriteEngine.Event (dataWidthBytes * 8) numWriters)
  deriving DecidableEq

section Words

variable {dataWidthBytes : ℕ}

/-- A beat that is read or written, byte by byte. -/
def bytesOfBeat : Op Place (BitVec (dataWidthBytes * 8)) → List (Op (ℕ × ℕ) (BitVec 8))
  | .load p v => loadBytes p.byte v
  | .store p v => storeBytes p.byte v

/-- The beats read, and the beats written. -/
def loadsOf (ops : List (Op Place (BitVec (dataWidthBytes * 8)))) : List (Place × BitVec (dataWidthBytes * 8)) :=
  ops.filterMap fun
    | .load p v => some (p, v)
    | _ => none

def storesOf (ops : List (Op Place (BitVec (dataWidthBytes * 8)))) : List (Place × BitVec (dataWidthBytes * 8)) :=
  ops.filterMap fun
    | .store p v => some (p, v)
    | _ => none

lemma mem_loadsOf {ops : List (Op Place (BitVec (dataWidthBytes * 8)))} {p : Place} {v : BitVec (dataWidthBytes * 8)} :
    (p, v) ∈ loadsOf ops ↔ .load p v ∈ ops := by
  rw [loadsOf, List.mem_filterMap]
  constructor
  · rintro ⟨op, hop, heq⟩
    cases op with
    | load q u =>
      cases heq
      exact hop
    | store q u => cases heq
  · intro hop
    exact ⟨_, hop, rfl⟩

lemma mem_storesOf {ops : List (Op Place (BitVec (dataWidthBytes * 8)))} {p : Place} {v : BitVec (dataWidthBytes * 8)} :
    (p, v) ∈ storesOf ops ↔ .store p v ∈ ops := by
  rw [storesOf, List.mem_filterMap]
  constructor
  · rintro ⟨op, hop, heq⟩
    cases op with
    | load q u => cases heq
    | store q u =>
      cases heq
      exact hop
  · intro hop
    exact ⟨_, hop, rfl⟩

/-- The bytes that are stored. -/
lemma store_mem_flatMap {ops : List (Op Place (BitVec (dataWidthBytes * 8)))} {x : ℕ × ℕ} {u : BitVec 8}
    (h : .store x u ∈ ops.flatMap bytesOfBeat) :
    ∃ p v i, .store p v ∈ ops ∧ i < dataWidthBytes ∧ x = p.byte i ∧ u = byteOf v i := by
  obtain ⟨op, hop, hmem⟩ := List.mem_flatMap.mp h
  cases op with
  | load p v =>
    obtain ⟨i, -, hi⟩ := List.mem_map.mp hmem
    cases hi
  | store p v =>
    obtain ⟨i, hlt, hi⟩ := List.mem_map.mp hmem
    cases hi
    exact ⟨p, v, i, hop, List.mem_range.mp hlt, rfl, rfl⟩

/-- The bytes of a beat that is read, and of one that is written. -/
lemma load_byte_mem {ops : List (Op Place (BitVec (dataWidthBytes * 8)))} {p : Place} {v : BitVec (dataWidthBytes * 8)}
    (h : .load p v ∈ ops) {i : ℕ} (hi : i < dataWidthBytes) : .load (p.byte i) (byteOf v i) ∈ ops.flatMap bytesOfBeat :=
  List.mem_flatMap.mpr ⟨_, h, List.mem_map.mpr ⟨i, List.mem_range.mpr hi, rfl⟩⟩

lemma store_byte_mem {ops : List (Op Place (BitVec (dataWidthBytes * 8)))} {p : Place} {v : BitVec (dataWidthBytes * 8)}
    (h : .store p v ∈ ops) {i : ℕ} (hi : i < dataWidthBytes) :
    .store (p.byte i) (byteOf v i) ∈ ops.flatMap bytesOfBeat :=
  List.mem_flatMap.mpr ⟨_, h, List.mem_map.mpr ⟨i, List.mem_range.mpr hi, rfl⟩⟩

end Words

section Memory

variable {dataWidthBytes numReaders numWriters : ℕ}

/-- What the memory does at an event of an engine. A beat that is sent has the bytes that are there. -/
def ObjectStore.serve (m : ObjectStore) : EngineEvent dataWidthBytes numReaders numWriters →
    Option (ObjectStore × List (Op Place (BitVec (dataWidthBytes * 8))))
  | .read (.request _ r) => some ({ m with loads := m.loads ++ MemreadEngine.places dataWidthBytes r }, [])
  | .read (.data d) =>
    match m.loads with
    | [] => none
    | p :: loads => do
      let bytes ← replay m.bytes (bytesOfBeat (.load p d))
      return ({ m with loads, bytes }, [.load p d])
  | .write (.request _ r) => some ({ m with stores := m.stores ++ MemreadEngine.places dataWidthBytes r }, [])
  | .write (.written _ v) =>
    match m.stores with
    | [] => none
    | p :: stores => do
      let bytes ← replay m.bytes (bytesOfBeat (.store p v))
      return ({ m with stores, bytes }, [.store p v])
  | _ => some (m, [])

/-- The memory takes part in the steps of the engines. -/
def objectStore : Listener ObjectStore (EngineEvent dataWidthBytes numReaders numWriters)
    (Op Place (BitVec (dataWidthBytes * 8))) := ⟨ObjectStore.serve⟩

/-- The events of the read engine, and those of the write engine. -/
def EngineEvent.read? : EngineEvent dataWidthBytes numReaders numWriters →
    Option (MemreadEngine.Event (dataWidthBytes * 8) numReaders)
  | .read e => some e
  | .write _ => none

def EngineEvent.write? : EngineEvent dataWidthBytes numReaders numWriters →
    Option (MemwriteEngine.Event (dataWidthBytes * 8) numWriters)
  | .read _ => none
  | .write e => some e

/-! ## What was asked for and what was done -/

/-- **The beats are those that were asked for**, the others are still to come; and they are what the bytes have been
through. -/
structure ObjectStore.Served (bytes : ℕ × ℕ → BitVec 8) (es : List (EngineEvent dataWidthBytes numReaders numWriters))
    (ops : List (Op Place (BitVec (dataWidthBytes * 8)))) (m : ObjectStore) : Prop where
  loads : (MemreadEngine.requests (es.filterMap EngineEvent.read?)).flatMap
      (fun r => MemreadEngine.places dataWidthBytes r.2) = (loadsOf ops).map Prod.fst ++ m.loads
  given : MemreadEngine.given (es.filterMap EngineEvent.read?) = (loadsOf ops).map Prod.snd
  stores : (MemwriteEngine.recordOf (es.filterMap EngineEvent.write?)).requests.flatMap
      (fun r => MemreadEngine.places dataWidthBytes r.2) = (storesOf ops).map Prod.fst ++ m.stores
  written : (MemwriteEngine.recordOf (es.filterMap EngineEvent.write?)).written.map Prod.snd =
    (storesOf ops).map Prod.snd
  bytes : replay bytes (ops.flatMap bytesOfBeat) = some m.bytes

variable {bytes : ℕ × ℕ → BitVec 8} {es : List (EngineEvent dataWidthBytes numReaders numWriters)}
  {ops ops' : List (Op Place (BitVec (dataWidthBytes * 8)))} {m m' : ObjectStore}

/-- One more event. -/
lemma ObjectStore.Served.serve (h : ObjectStore.Served bytes es ops m)
    {e : EngineEvent dataWidthBytes numReaders numWriters} (he : m.serve e = some (m', ops')) :
    ObjectStore.Served bytes (es ++ [e]) (ops ++ ops') m' := by
  obtain ⟨hloads, hgiven, hstores, hwritten, hbytes⟩ := h
  cases e with
  | read e =>
    have hwrite : (es ++ [EngineEvent.read e]).filterMap EngineEvent.write? = es.filterMap EngineEvent.write? := by
      simp [EngineEvent.write?]
    have hread : (es ++ [EngineEvent.read e]).filterMap EngineEvent.read? = es.filterMap EngineEvent.read? ++ [e] := by
      simp [EngineEvent.read?]
    cases e with
    | request i r =>
      cases he
      rw [List.append_nil]
      refine ⟨?_, ?_, by rwa [hwrite], by rwa [hwrite], hbytes⟩
      · rw [hread, MemreadEngine.requests, List.filterMap_append, ← MemreadEngine.requests, List.flatMap_append, hloads,
          List.append_assoc]
        simp [MemreadEngine.Event.request?]
      · rw [hread, MemreadEngine.given, List.filterMap_append, ← MemreadEngine.given, hgiven]
        exact List.append_nil _
    | data d =>
      simp only [ObjectStore.serve] at he
      split at he
      case h_1 => cases he
      case h_2 p rest hp =>
        simp only [bind, pure, Option.bind_eq_some_iff, Option.some.injEq, Prod.mk.injEq] at he
        obtain ⟨bytes', hreplay, rfl, rfl⟩ := he
        have hl : loadsOf (ops ++ [Op.load p d]) = loadsOf ops ++ [(p, d)] := List.filterMap_append
        have hs : storesOf (ops ++ [Op.load p d]) = storesOf ops := by simp [storesOf]
        refine ⟨?_, ?_, by rwa [hwrite, hs], by rwa [hwrite, hs], ?_⟩
        · rw [hread, MemreadEngine.requests, List.filterMap_append, ← MemreadEngine.requests, List.flatMap_append, hloads,
            hl, hp]
          simp [MemreadEngine.Event.request?]
        · rw [hread, MemreadEngine.given, List.filterMap_append, ← MemreadEngine.given, hgiven, hl, List.map_append]
          rfl
        · rw [List.flatMap_append, replay_append hbytes]
          simpa using hreplay
    | accepted | stored | loaded | dequeued | response =>
      cases he
      rw [List.append_nil]
      refine ⟨?_, ?_, by rwa [hwrite], by rwa [hwrite], hbytes⟩
      · rw [hread, MemreadEngine.requests, List.filterMap_append, ← MemreadEngine.requests, List.flatMap_append, hloads]
        exact List.append_nil _
      · rw [hread, MemreadEngine.given, List.filterMap_append, ← MemreadEngine.given, hgiven]
        exact List.append_nil _
  | write e =>
    have hread : (es ++ [EngineEvent.write e]).filterMap EngineEvent.read? = es.filterMap EngineEvent.read? := by
      simp [EngineEvent.read?]
    have hwrite : MemwriteEngine.recordOf ((es ++ [EngineEvent.write e]).filterMap EngineEvent.write?) =
        (MemwriteEngine.recordOf (es.filterMap EngineEvent.write?)).add e := by
      rw [List.filterMap_append, MemwriteEngine.recordOf_append]
      rfl
    cases e with
    | request i r =>
      cases he
      rw [List.append_nil]
      refine ⟨by rwa [hread], by rwa [hread], ?_, by rwa [hwrite], hbytes⟩
      rw [hwrite, MemwriteEngine.Record.add, List.flatMap_append, hstores, List.append_assoc]
      simp
    | written i v =>
      simp only [ObjectStore.serve] at he
      split at he
      case h_1 => cases he
      case h_2 p rest hp =>
        simp only [bind, pure, Option.bind_eq_some_iff, Option.some.injEq, Prod.mk.injEq] at he
        obtain ⟨bytes', hreplay, rfl, rfl⟩ := he
        have hs : storesOf (ops ++ [Op.store p v]) = storesOf ops ++ [(p, v)] := List.filterMap_append
        have hl : loadsOf (ops ++ [Op.store p v]) = loadsOf ops := by simp [loadsOf]
        refine ⟨by rwa [hread, hl], by rwa [hread, hl], ?_, ?_, ?_⟩
        · rw [hwrite, MemwriteEngine.Record.add, hstores, hs, hp]
          simp
        · rw [hwrite, MemwriteEngine.Record.add, List.map_append, hwritten, hs, List.map_append]
          rfl
        · rw [List.flatMap_append, replay_append hbytes]
          simpa using hreplay
    | accepted | loaded | piped | injected | burstsOo | done | response =>
      cases he
      rw [List.append_nil]
      exact ⟨by rwa [hread], by rwa [hread], by rwa [hwrite], by rwa [hwrite], hbytes⟩

/-- **What the memory makes of a run.** -/
theorem ObjectStore.served (h : objectStore.hears ⟨[], [], bytes⟩ es = some (m, ops)) :
    ObjectStore.Served bytes es ops m := by
  refine Listener.hears_invariant (I := fun es ops m => ObjectStore.Served bytes es ops m) (P := fun _ => True)
    ⟨rfl, rfl, rfl, rfl, rfl⟩ ?_ (fun _ _ => trivial) h
  intro es ops m e m' ops' hserved _ he
  exact hserved.serve he

end Memory

/-! ## One server -/

section One

variable {dataWidthBytes : ℕ} {bytes : ℕ × ℕ → BitVec 8} {m : ObjectStore}

/-- Pairs, from their components and more. -/
lemma zip_fst_append_snd {α β : Type} (l : List (α × β)) (as : List α) : (l.map Prod.fst ++ as).zip (l.map Prod.snd) = l := by
  induction l with
  | nil => exact List.zip_nil_right
  | cons x l ih => rw [List.map_cons, List.map_cons, List.cons_append, List.zip_cons_cons, ih]

/-- What the memory gave for the only server of a read engine is what it sent. -/
lemma ObjectStore.Served.givenTo_eq {numWriters : ℕ} {es : List (EngineEvent dataWidthBytes 1 numWriters)}
    {ops : List (Op Place (BitVec (dataWidthBytes * 8)))} (h : ObjectStore.Served bytes es ops m) :
    MemreadEngine.givenTo 0 (es.filterMap EngineEvent.read?) dataWidthBytes = loadsOf ops := by
  have hall : ∀ b : (Fin 1 × Place) × BitVec (dataWidthBytes * 8), decide (b.1.1 = 0) = true := by
    intro b
    rw [decide_eq_true_eq]
    exact Subsingleton.elim _ _
  have hmap : (fun b : (Fin 1 × Place) × BitVec (dataWidthBytes * 8) => (b.1.2, b.2)) = Prod.map Prod.snd id := rfl
  rw [MemreadEngine.givenTo, List.filter_eq_self.mpr fun b _ => hall b, hmap, ← List.zip_map, List.map_id, List.map_flatMap,
    h.given]
  simp only [List.map_map, Function.comp_def, List.map_id']
  rw [h.loads, zip_fst_append_snd]

/-- What the only server of a write engine gave the memory is what the memory got. -/
lemma ObjectStore.Served.storedTo_eq {numReaders : ℕ} {es : List (EngineEvent dataWidthBytes numReaders 1)}
    {ops : List (Op Place (BitVec (dataWidthBytes * 8)))} (h : ObjectStore.Served bytes es ops m) :
    (MemwriteEngine.recordOf (es.filterMap EngineEvent.write?)).storedTo dataWidthBytes 0 = storesOf ops := by
  have hall : ∀ b : Fin 1 × Place × BitVec (dataWidthBytes * 8), decide (b.1 = 0) = true := by
    intro b
    rw [decide_eq_true_eq]
    exact Subsingleton.elim _ _
  have hmap : (Prod.snd ∘ fun e : (Fin 1 × Place) × Fin 1 × BitVec (dataWidthBytes * 8) => (e.1.1, (e.1.2, e.2.2))) =
      Prod.map Prod.snd Prod.snd := rfl
  rw [MemwriteEngine.Record.storedTo, BurstFunnel.fromInput, List.filter_eq_self.mpr fun b _ => hall b, List.map_map, hmap,
    ← List.zip_map, List.map_flatMap, h.written]
  simp only [List.map_map, Function.comp_def, List.map_id']
  rw [h.stores, zip_fst_append_snd]

end One

end Xbsv
