import Xbsv.Rules.Ends
import Xbsv.Search.Scanning

set_option relaxedAutoImplicit false
set_option autoImplicit false

/-!
# Hardware and software search

After its setup the engine searches one haystack after the other. What it says of each is compared with what `MP`
says of it.

## Main definitions

* `Xbsv.MPSetup.start` — the engine once `setup` has been called.
* `Xbsv.MPEngine.transcript` — a search with its locations and its end.
* `Xbsv.MPEngine.Prepared`, `Xbsv.MPEngine.Told` — the invariants of the runs.

## Main results

* `Xbsv.MPEngine.told` — every search is answered with the positions of the software but for the one that ends the
  haystack.
-/

namespace Xbsv

open Rules

namespace MPSetup

variable (p : MPSetup) (h : Search)

/-- The engine when `setup` has been called. -/
def start (c : MPEngineConfig) : MPEngine c :=
  (MPEngine.reset c p.memory).setup p.needlePointer p.mpNextPointer (BitVec.ofNat 32 p.m)

/-- The positions that the software prints. -/
def positions : List ℤ := (MP p.x h.char p.T p.m h.haystack.length).getD []

/-- The haystack ends in a match. -/
def EndsInMatch : Prop := MP.EndsInMatch p.x h.char p.T p.m h.haystack.length

instance : Decidable (p.EndsInMatch h) := inferInstanceAs (Decidable (MP.EndsInMatch ..))

/-- The positions that the engine finds. -/
def found : List ℤ := (p.positions h).filter fun q => q + p.m ≠ h.haystack.length

/-- The software comes to an end. -/
lemma exists_positions : MP p.x h.char p.T p.m h.haystack.length = some (p.positions h) ∧
    MP.Reports p.x h.char p.T p.m h.haystack.length 1 1 (p.positions h) := by
  obtain ⟨ps, hps, hreports⟩ := exists_MP (x := p.x) (t := h.char) p.one_le_m p.falls h.haystack.length
  rw [positions, hps]
  exact ⟨rfl, hreports⟩

/-- The engine finds every position if and only if the haystack does not end in a match. -/
lemma found_eq_iff : p.found h = p.positions h ↔ ¬p.EndsInMatch h := by
  have hreports := (p.exists_positions h).2
  rw [found, List.filter_eq_self]
  rcases Nat.eq_zero_or_pos h.haystack.length with hzero | hpos
  · refine iff_of_true (fun q hq => ?_) fun hend => hend.1.ne' hzero
    have hle := hreports.le_of_mem hq
    omega
  · rw [EndsInMatch, ← hreports.mem_iff p.falls p.one_le_m hpos rfl p.one_le_m]
    constructor
    · intro hall hmem
      have hne := hall _ hmem
      simp at hne
    · intro hmem q hq
      have hne : q ≠ (h.haystack.length : ℤ) - p.m := fun heq => hmem (heq ▸ hq)
      have hadd : q + p.m ≠ h.haystack.length := by omega
      simpa using hadd

/-- The locations that the software's positions stand for. -/
def locations : List (BitVec 32) := h.locations (p.positions h)

/-- The engine's locations are those of the software if and only if the haystack does not end in a match. -/
lemma locations_found_iff : h.locations (p.found h) = p.locations h ↔ ¬p.EndsInMatch h := by
  rw [← p.found_eq_iff h]
  constructor
  · intro heq
    have hlength := congrArg List.length heq
    rw [locations, Search.locations, Search.locations, List.length_map, List.length_map] at hlength
    exact List.filter_sublist.eq_of_length hlength
  · intro heq
    rw [heq]
    rfl

end MPSetup

namespace MPEngine

variable {c : MPEngineConfig} {p : MPSetup} {s s' : MPEngine c} {tr es : List Event}

/-- A search for which some locations are put on `locf`. -/
def transcript (h : Search) (locs : List (BitVec 32)) : List Event := .search h :: locs.map .loc ++ [.comp]

/-- The searches that have been requested. -/
def searches (tr : List Event) : List Search :=
  tr.filterMap fun
    | .search h => some h
    | _ => none

@[simp] lemma searches_append (tr es : List Event) : searches (tr ++ es) = searches tr ++ searches es :=
  List.filterMap_append

@[simp] lemma searches_locs (locs : List (BitVec 32)) : searches (locs.map .loc) = [] := by
  simp [searches]

@[simp] lemma searches_transcript (h : Search) (locs : List (BitVec 32)) : searches (transcript h locs) = [h] := by
  have hhead : searches [.search h] = [h] := rfl
  have hcomp : searches [.comp] = [] := rfl
  rw [transcript, List.cons_append, ← List.singleton_append, searches_append, searches_append, searches_locs,
    hhead, hcomp]
  rfl

@[simp] lemma searches_flatMap (locs : Search → List (BitVec 32)) (hs : List Search) :
    searches (hs.flatMap fun h => transcript h (locs h)) = hs := by
  induction hs with
  | nil => rfl
  | cons h hs ih => rw [List.flatMap_cons, searches_append, searches_transcript, ih, List.singleton_append]

/-! ## The invariants -/

/-- The two transfers, and the block RAMs. -/
structure Prepared (p : MPSetup) (s : MPEngine c) : Prop where
  n2b : s.n2b.Loads s.memory p.needlePointer p.m (fun k => p.memory.bytes p.needlePointer 1 (1 * k))
    (decide (s.stage ≠ .idle)) s.needle
  mp2b : s.mp2b.Loads s.memory p.mpNextPointer p.m (fun k => p.memory.bytes p.mpNextPointer 4 (4 * k))
    (decide (s.stage ≠ .idle)) s.mpNext
  needleLenReg : s.needleLenReg.toNat = p.m
  idle : s.stage = .idle → s.needleResp.items = [] ∧ s.mpNextResp.items = [] ∧ s.efifo.items = []
  equipped : s.stage ≠ .idle → Equipped p s

/-- What has been said, with a bound on the steps that are left until the last search ends. -/
inductive Told (p : MPSetup) : ℕ → List Event → MPEngine c → Prop
  | rest {s : MPEngine c} (done : List Search) : s.stage ≠ .run → s.hreader.beats s.memory = [] →
    Told p (s.window + s.cost) (done.flatMap fun h => transcript h (h.locations (p.found h))) s
  | run {s : MPEngine c} {h : Search} {a j : ℕ} {ps ls : List ℤ} (done : List Search) : Scanning p h a j s →
    MP.Finds p.x h.char p.T p.m h.haystack.length a j ls → p.found h = ps ++ ls →
    Told p (s.bound p h a j)
      ((done.flatMap fun h => transcript h (h.locations (p.found h))) ++ .search h :: located h ps) s

/-- A step by which nothing is seen. -/
lemma Told.frame {b : ℕ} (ht : Told p b tr s) (hstage : s'.stage = s.stage)
    (hbeats : s.stage ≠ .run → s.hreader.beats s.memory = [] → s'.hreader.beats s'.memory = [])
    (hscan : ∀ {h a j}, Scanning p h a j s → Scanning p h a j s')
    (hlt : s'.window + s'.cost < s.window + s.cost) : ∃ b' < b, Told p b' (tr ++ []) s' := by
  rw [List.append_nil]
  cases ht with
  | rest done hrest hnil =>
    exact ⟨_, hlt, .rest done (by rw [hstage]; exact hrest) (hbeats hrest hnil)⟩
  | run done hs hls hfound =>
    refine ⟨_, ?_, .run done (hscan hs) hls hfound⟩
    simp only [bound]
    omega

/-! ## The steps -/

lemma fits_needle (c : MPEngineConfig) : BRAMReadClient.Fits 10 1 c.nc :=
  ⟨Nat.one_pos, c.nc_pos, one_dvd _, c.nc_lt, by omega, by omega⟩

lemma fits_mpNext (c : MPEngineConfig) : BRAMReadClient.Fits 10 4 c.nc :=
  ⟨by omega, c.nc_pos, c.four_dvd, c.nc_lt, by omega, by omega⟩

/-- After the setup the block RAMs hold the needle and the table. -/
lemma Prepared.finishSetup {b : ℕ} (hp : Prepared p s) (ht : Told p b tr s) (hstep : s.finishSetup = some s') :
    Prepared p s' ∧ ∃ b' < b, Told p b' (tr ++ []) s' := by
  simp only [MPEngine.finishSetup, Option.bind_eq_bind, Option.bind_eq_some_iff, Fifo.enq_eq_some, pure,
    Option.some.injEq] at hstep
  obtain ⟨n2b, hn2b, mp2b, hmp2b, conff, ⟨-, hconff⟩, rfl⟩ := hstep
  obtain ⟨hunseen, hn, hncost⟩ := hp.n2b.finish hn2b
  obtain ⟨-, hm, hmcost⟩ := hp.mp2b.finish hmp2b
  have hidle : s.stage = .idle := by simpa using hunseen
  obtain ⟨hneedleResp, hmpNextResp, hefifo⟩ := hp.idle hidle
  constructor
  · exact
      { n2b := hn
        mp2b := hm
        needleLenReg := hp.needleLenReg
        idle := fun h => by cases h
        equipped := fun _ =>
          { needle := fun k hk => by
              have hlt : k < n2b.j.toNat := by
                rw [hn.complete rfl]
                omega
              show s.needle (BitVec.ofNat 10 k) = p.x k
              rw [hn.bram k hlt, Nat.one_mul]
              exact bytes_one _ _ _
            mpNext := fun i hi hle => by
              have hlt : i < mp2b.j.toNat := by
                rw [hm.complete rfl]
                omega
              show s.mpNext (BitVec.ofNat 10 i) = BitVec.ofNat _ (p.T i)
              rw [hm.bram i hlt, p.table i hi hle]
            needleLenReg := hp.needleLenReg
            needleResp := by simp [hneedleResp, hefifo]
            mpNextResp := by simp [hmpNextResp, hefifo] } }
  · rw [List.append_nil]
    cases ht with
    | run _ hs =>
      have hrun := hs.stage
      rw [hidle] at hrun
      cases hrun
    | rest done hrest hnil =>
      refine ⟨_, ?_, .rest done (by simp) hnil⟩
      simp only [window, cost, hidle, reduceCtorEq, if_false, hconff, List.length_append, List.length_singleton]
      omega

/-- Queues on which the needle and the table do not depend. -/
lemma Prepared.frame (hp : Prepared p s) (haystack : Fifo (2 * c.nc) (BitVec (8 * 1))) (hreader : MemReader c.nc)
    (haystackOff : BitVec 32) (compf : Fifo c.compSize Unit) (conff : Fifo c.confSize Unit)
    (locf : Fifo c.locSize (BitVec 32)) :
    Prepared p { s with haystack, hreader, haystackOff, compf, conff, locf } :=
  { hp with equipped := fun h => { hp.equipped h with } }

/-- A step of a search by which nothing is seen. -/
lemma Told.frame_run {b : ℕ} (ht : Told p b tr s) (hrun : s.stage = .run)
    (hscan : ∀ {h a j}, Scanning p h a j s → Scanning p h a j s' ∧ s'.window + s'.cost < s.window + s.cost) :
    ∃ b' < b, Told p b' (tr ++ []) s' := by
  rw [List.append_nil]
  cases ht with
  | rest _ hrest => exact absurd hrun hrest
  | run done hs hls hfound =>
    obtain ⟨hs', hlt⟩ := hscan hs
    refine ⟨_, ?_, .run done hs' hls hfound⟩
    simp only [bound]
    omega

/-- The haystack. -/
lemma Prepared.haystackReq {b : ℕ} (hp : Prepared p s) (ht : Told p b tr s) (hstep : s.haystackReq = some s') :
    Prepared p s' ∧ ∃ b' < b, Told p b' (tr ++ []) s' := by
  have hstep' := hstep
  simp only [MPEngine.haystackReq] at hstep'
  split at hstep'
  on_goal 2 => cases hstep'
  rename_i hguard
  simp only [Option.bind_eq_bind, Option.bind_eq_some_iff, pure, Option.some.injEq] at hstep'
  obtain ⟨hreader, -, rfl⟩ := hstep'
  exact ⟨hp.frame _ _ _ _ _ _, ht.frame_run hguard.1 fun hs => hs.haystackReq hstep⟩

lemma Prepared.haystackResp {b : ℕ} (hp : Prepared p s) (ht : Told p b tr s) (hstep : s.haystackResp = some s') :
    Prepared p s' ∧ ∃ b' < b, Told p b' (tr ++ []) s' := by
  have hstep' := hstep
  simp only [MPEngine.haystackResp, Option.bind_eq_bind, Option.bind_eq_some_iff, Prod.exists] at hstep'
  obtain ⟨v, hreader, hdata, hstep'⟩ := hstep'
  have hrun : s.stage = .run := by
    by_contra hrest
    cases ht with
    | run _ hs => exact hrest hs.stage
    | rest _ _ hnil =>
      rw [(MemReader.readData_eq_some hdata s.memory 0).1] at hnil
      cases hnil
  refine ⟨?_, ht.frame_run hrun fun hs => hs.haystackResp hstep⟩
  split at hstep'
  · simp only [Option.bind_eq_some_iff, pure, Option.some.injEq] at hstep'
    obtain ⟨haystack, -, rfl⟩ := hstep'
    exact hp.frame _ _ _ _ _ _
  · cases hstep'
    exact hp.frame _ _ _ _ _ _

lemma Prepared.haystackDrain {b : ℕ} (hp : Prepared p s) (ht : Told p b tr s) (hstep : s.haystackDrain = some s') :
    Prepared p s' ∧ ∃ b' < b, Told p b' (tr ++ []) s' := by
  simp only [MPEngine.haystackDrain] at hstep
  split at hstep
  on_goal 2 => cases hstep
  rename_i hrest
  simp only [Option.bind_eq_bind, Option.bind_eq_some_iff, Prod.exists, Fifo.deq_eq_some, pure,
    Option.some.injEq] at hstep
  obtain ⟨_, haystack, hitems, rfl⟩ := hstep
  refine ⟨hp.frame _ _ _ _ _ _, ht.frame rfl (fun _ hnil => hnil) (fun hs => absurd hs.stage hrest) ?_⟩
  simp only [window, cost, hitems, List.length_cons]
  omega

/-- Answers that are left over are drained. -/
lemma Prepared.bramDrain {b : ℕ} (hp : Prepared p s) (ht : Told p b tr s) (hstep : s.bramDrain = some s') :
    Prepared p s' ∧ ∃ b' < b, Told p b' (tr ++ []) s' := by
  simp only [MPEngine.bramDrain] at hstep
  split at hstep
  on_goal 2 => cases hstep
  rename_i hrest
  simp only [Option.bind_eq_bind, Option.bind_eq_some_iff, Prod.exists, Fifo.deq_eq_some, pure,
    Option.some.injEq] at hstep
  obtain ⟨_, mpNextResp, hmpNext, _, needleResp, hneedle, e, i, efifo, hefifo, rfl⟩ := hstep
  refine ⟨?_, ht.frame rfl (fun _ hnil => hnil) (fun hs => absurd hs.stage hrest) ?_⟩
  · exact
      { hp with
        idle := fun hidle => by
          have hnil := (hp.idle hidle).2.2
          rw [hefifo] at hnil
          cases hnil
        equipped := fun h => ((hp.equipped h).deq hneedle hmpNext hefifo).1 }
  · simp only [window, cost, if_neg hrest, hefifo, List.length_cons]
    omega

/-- The needle. -/
lemma Prepared.matchNeedleReq {b : ℕ} (hp : Prepared p s) (ht : Told p b tr s)
    (hstep : s.matchNeedleReq = some s') : Prepared p s' ∧ ∃ b' < b, Told p b' (tr ++ []) s' := by
  have hstep' := hstep
  simp only [MPEngine.matchNeedleReq] at hstep'
  split at hstep'
  on_goal 2 => cases hstep'
  rename_i hrun
  simp only [Option.bind_eq_bind, Option.bind_eq_some_iff, pure, Option.some.injEq] at hstep'
  obtain ⟨needleResp, -, mpNextResp, -, efifo, -, rfl⟩ := hstep'
  have hne : s.stage ≠ .idle := by
    rw [hrun]
    decide
  have he := hp.equipped hne
  refine ⟨?_, ht.frame_run hrun fun hs =>
    ⟨(hs.matchNeedleReq he hstep).1, (hs.matchNeedleReq he hstep).2.2⟩⟩
  cases ht with
  | rest _ hrest => exact absurd hrun hrest
  | run _ hs =>
    exact
      { hp with
        idle := fun hidle => absurd hidle hne
        equipped := fun _ => (hs.matchNeedleReq he hstep).2.1 }

/-- What a step of a search does not touch: the transfers, the block RAMs and the memory. -/
structure Keeps (s s' : MPEngine c) : Prop where
  n2b : s'.n2b = s.n2b
  mp2b : s'.mp2b = s.mp2b
  memory : s'.memory = s.memory
  needle : s'.needle = s.needle
  mpNext : s'.mpNext = s.mpNext
  stage : s'.stage ≠ .idle

/-- The tests touch neither the block RAMs nor the memory, and request nothing. -/
lemma compare_keeps (hne : s.stage ≠ .idle) {nv : BitVec (8 * 1)} {mp : BitVec (8 * 4)} {i : BitVec 32}
    (hstep : s.compare nv mp i = some (s', es)) : Keeps s s' ∧ searches es = [] := by
  simp only [MPEngine.compare, Option.bind_eq_bind] at hstep
  split at hstep
  · simp only [Option.bind_eq_some_iff, pure, Option.some.injEq, Prod.mk.injEq] at hstep
    obtain ⟨compf, -, rfl, rfl⟩ := hstep
    exact ⟨⟨rfl, rfl, rfl, rfl, rfl, by simp⟩, rfl⟩
  · split at hstep
    · simp only [Option.bind_eq_some_iff, pure, Option.some.injEq, Prod.mk.injEq] at hstep
      obtain ⟨locf, -, rfl, rfl⟩ := hstep
      exact ⟨⟨rfl, rfl, rfl, rfl, rfl, hne⟩, rfl⟩
    · obtain ⟨hv, -, hstep⟩ := Option.bind_eq_some_iff.mp hstep
      split at hstep
      · simp only [pure, Option.some.injEq, Prod.mk.injEq] at hstep
        obtain ⟨rfl, rfl⟩ := hstep
        exact ⟨⟨rfl, rfl, rfl, rfl, rfl, hne⟩, rfl⟩
      · simp only [Option.bind_eq_some_iff, pure, Option.some.injEq, Prod.mk.injEq] at hstep
        obtain ⟨haystack, -, rfl, rfl⟩ := hstep
        exact ⟨⟨rfl, rfl, rfl, rfl, rfl, hne⟩, rfl⟩

lemma matchNeedleResp_keeps (hstep : s.matchNeedleResp = some (s', es)) : Keeps s s' ∧ searches es = [] := by
  simp only [MPEngine.matchNeedleResp] at hstep
  split at hstep
  on_goal 2 => cases hstep
  rename_i hrun
  have hne : s.stage ≠ .idle := by
    rw [hrun]
    decide
  simp only [Option.bind_eq_bind, Option.bind_eq_some_iff, Prod.exists] at hstep
  obtain ⟨nv, needleResp, -, mp, mpNextResp, -, e, i, efifo, -, hstep⟩ := hstep
  split at hstep
  · obtain ⟨hkeeps, hes⟩ := compare_keeps (s := { s with needleResp, mpNextResp, efifo }) hne hstep
    exact ⟨{ hkeeps with }, hes⟩
  · simp only [pure, Option.some.injEq, Prod.mk.injEq] at hstep
    obtain ⟨rfl, rfl⟩ := hstep
    exact ⟨⟨rfl, rfl, rfl, rfl, rfl, hne⟩, rfl⟩

lemma Prepared.matchNeedleResp {b : ℕ} (hp : Prepared p s) (ht : Told p b tr s)
    (hstep : s.matchNeedleResp = some (s', es)) : Prepared p s' ∧ ∃ b' < b, Told p b' (tr ++ es) s' := by
  cases ht with
  | rest _ hrest =>
    rw [MPEngine.matchNeedleResp, if_neg hrest] at hstep
    cases hstep
  | @run s h a j ps ls done hs hls hfound =>
    have hne : s.stage ≠ .idle := by
      rw [hs.stage]
      decide
    obtain ⟨hproc, he⟩ := hs.matchNeedleResp (hp.equipped hne) hls hstep
    constructor
    · have hk := (matchNeedleResp_keeps hstep).1
      have hn := hp.n2b
      have hm := hp.mp2b
      rw [decide_eq_true hne] at hn hm
      exact
        { n2b := by rw [hk.n2b, hk.memory, hk.needle, decide_eq_true hk.stage]; exact hn
          mp2b := by rw [hk.mp2b, hk.memory, hk.mpNext, decide_eq_true hk.stage]; exact hm
          needleLenReg := he.needleLenReg
          idle := fun hidle => absurd hidle hk.stage
          equipped := fun _ => he }
    · rcases hproc with ⟨a', j', qs, ls', hs', hls', rfl, rfl, hlt⟩ | ⟨rfl, rfl, hready, hnil, hlt⟩
      · refine ⟨_, hlt, ?_⟩
        rw [List.append_assoc, List.cons_append, located, located, ← List.map_append, Search.locations, Search.locations,
          ← List.map_append]
        exact .run done hs' hls' (by rw [hfound, List.append_assoc])
      · refine ⟨_, hlt, ?_⟩
        have htr : (done.flatMap fun h => transcript h (h.locations (p.found h))) ++ Event.search h :: located h ps ++
            [Event.comp] = (done ++ [h]).flatMap fun h => transcript h (h.locations (p.found h)) := by
          rw [List.flatMap_append, List.flatMap_singleton, hfound, List.append_nil, transcript, located, List.append_assoc]
        rw [htr]
        exact .rest (done ++ [h]) (by rw [hready]; decide) hnil

/-! ## The transfers and the queues -/

lemma Prepared.needle {b : ℕ} (hp : Prepared p s) (ht : Told p b tr s) {a : BRAMReadClient.Action}
    {r : BRAMReadClient 10 1 c.nc × (BitVec 10 → BitVec (8 * 1))} (hstep : s.n2b.step s.memory s.needle a = some r) :
    Prepared p { s with n2b := r.1, needle := r.2 } ∧
      ∃ b' < b, Told p b' (tr ++ []) { s with n2b := r.1, needle := r.2 } := by
  obtain ⟨hl, hlt⟩ := hp.n2b.step (fits_needle c) p.m_lt hstep
  constructor
  · exact
      { hp with
        n2b := hl
        equipped := fun hne => by
          have hn := hp.n2b
          rw [decide_eq_true hne] at hn
          rw [hn.bram_eq hstep]
          exact { hp.equipped hne with } }
  · refine ht.frame rfl (fun _ hnil => hnil) (fun hs => { hs with }) ?_
    simp only [window, cost]
    omega

lemma Prepared.mpNext {b : ℕ} (hp : Prepared p s) (ht : Told p b tr s) {a : BRAMReadClient.Action}
    {r : BRAMReadClient 10 4 c.nc × (BitVec 10 → BitVec (8 * 4))} (hstep : s.mp2b.step s.memory s.mpNext a = some r) :
    Prepared p { s with mp2b := r.1, mpNext := r.2 } ∧
      ∃ b' < b, Told p b' (tr ++ []) { s with mp2b := r.1, mpNext := r.2 } := by
  obtain ⟨hl, hlt⟩ := hp.mp2b.step (fits_mpNext c) p.m_lt hstep
  constructor
  · exact
      { hp with
        mp2b := hl
        equipped := fun hne => by
          have hm := hp.mp2b
          rw [decide_eq_true hne] at hm
          rw [hm.bram_eq hstep]
          exact { hp.equipped hne with } }
  · refine ht.frame rfl (fun _ hnil => hnil) (fun hs => { hs with }) ?_
    simp only [window, cost]
    omega

/-- A step of the memory. -/
lemma Told.reader {b : ℕ} (ht : Told p b tr s) {hreader : MemReader c.nc}
    (hbeats : hreader.beats s.memory = s.hreader.beats s.memory)
    (hcost : s.hreader.cost c.nc = hreader.cost c.nc + 1) : ∃ b' < b, Told p b' (tr ++ []) { s with hreader } := by
  refine ht.frame rfl (fun _ hnil => hbeats.trans hnil) (fun hs => ?_) ?_
  · exact hs.frame s.haystack hreader (by rw [hbeats]) fun v hv => hbeats ▸ hv
  · simp only [window, cost, hcost]
    omega

/-- **A step that is not a call** keeps the invariants and lowers the bound. -/
theorem Prepared.step {b : ℕ} (hp : Prepared p s) (ht : Told p b tr s) {a : Action} (ha : a.isInternal = true)
    (hstep : (mpEngine c).step s a = some (s', es)) : Prepared p s' ∧ ∃ b' < b, Told p b' (tr ++ es) s' := by
  cases a <;> simp only [mpEngine, Option.map_eq_some_iff, Prod.mk.injEq, Prod.exists, Fifo.deq_eq_some] at hstep
  case finishSetup =>
    obtain ⟨_, hstep, rfl, rfl⟩ := hstep
    exact hp.finishSetup ht hstep
  case haystackReq =>
    obtain ⟨_, hstep, rfl, rfl⟩ := hstep
    exact hp.haystackReq ht hstep
  case haystackResp =>
    obtain ⟨_, hstep, rfl, rfl⟩ := hstep
    exact hp.haystackResp ht hstep
  case haystackDrain =>
    obtain ⟨_, hstep, rfl, rfl⟩ := hstep
    exact hp.haystackDrain ht hstep
  case bramDrain =>
    obtain ⟨_, hstep, rfl, rfl⟩ := hstep
    exact hp.bramDrain ht hstep
  case matchNeedleReq =>
    obtain ⟨_, hstep, rfl, rfl⟩ := hstep
    exact hp.matchNeedleReq ht hstep
  case matchNeedleResp => exact hp.matchNeedleResp ht hstep
  case needle =>
    obtain ⟨_, _, hstep, rfl, rfl⟩ := hstep
    exact hp.needle ht hstep
  case mpNext =>
    obtain ⟨_, _, hstep, rfl, rfl⟩ := hstep
    exact hp.mpNext ht hstep
  case clientReq =>
    obtain ⟨hreader, hstep, rfl, rfl⟩ := hstep
    obtain ⟨hbeats, hcost⟩ := MemReader.clientReq_eq_some hstep s.memory c.nc
    exact ⟨hp.frame _ _ _ _ _ _, ht.reader hbeats hcost⟩
  case clientData =>
    obtain ⟨hreader, hstep, rfl, rfl⟩ := hstep
    obtain ⟨hbeats, hcost⟩ := MemReader.clientData_eq_some hstep c.nc
    exact ⟨hp.frame _ _ _ _ _ _, ht.reader hbeats hcost⟩
  case conf =>
    obtain ⟨_, conff, hitems, rfl, rfl⟩ := hstep
    refine ⟨hp.frame _ _ _ _ _ _, ht.frame rfl (fun _ hnil => hnil) (fun hs => { hs with }) ?_⟩
    simp only [window, cost, hitems, List.length_cons]
    omega
  case comp =>
    obtain ⟨_, compf, hitems, rfl, rfl⟩ := hstep
    refine ⟨hp.frame _ _ _ _ _ _, ht.frame rfl (fun _ hnil => hnil) (fun hs => { hs with }) ?_⟩
    simp only [window, cost, hitems, List.length_cons]
    omega
  case loc =>
    obtain ⟨_, locf, hitems, rfl, rfl⟩ := hstep
    refine ⟨hp.frame _ _ _ _ _ _, ht.frame rfl (fun _ hnil => hnil) (fun hs => { hs with }) ?_⟩
    simp only [window, cost, hitems, List.length_cons]
    omega
  case search => cases ha
  case store => cases ha

/-- **A search is requested.** -/
lemma Prepared.search {b : ℕ} (hp : Prepared p s) (ht : Told p b tr s) {ptr len base : BitVec 32}
    (hstep : s.search ptr len base = some (s', es)) (hproper : ∀ h ∈ searches es, h.Proper) :
    Prepared p s' ∧ ∃ b', Told p b' (tr ++ es) s' := by
  simp only [MPEngine.search] at hstep
  split at hstep
  on_goal 2 => cases hstep
  rename_i hguard
  obtain ⟨hready, hefifo, hhaystack⟩ := hguard
  simp only [Option.some.injEq, Prod.mk.injEq] at hstep
  obtain ⟨rfl, rfl⟩ := hstep
  have hne : s.stage ≠ .idle := by
    rw [hready]
    decide
  have he := hp.equipped hne
  have hneedle := he.needleResp
  have hmpNext := he.mpNextResp
  rw [hefifo, List.map_nil] at hneedle hmpNext
  have hn := hp.n2b
  have hm := hp.mp2b
  rw [decide_eq_true hne] at hn hm
  constructor
  · exact
      { hp with
        n2b := hn
        mp2b := hm
        idle := fun h => by cases h
        equipped := fun _ => { he with needleResp := hneedle, mpNextResp := hmpNext } }
  · cases ht with
    | run _ hs =>
      have hrun := hs.stage
      rw [hready] at hrun
      cases hrun
    | rest done hrest hnil =>
      set h : Search := ⟨base, (List.range len.toNat).map fun k => s.memory ptr (base.toNat + k)⟩ with hh
      have hlen : h.haystack.length = len.toNat := by simp [hh]
      have hfinds := (p.exists_positions h).2.toFinds p.falls p.one_le_m p.one_le_m
      have hfound : p.found h = [] ++ p.found h := rfl
      refine ⟨_, .run done ?_ hfinds hfound⟩
      exact
        { proper := hproper h (by simp [searches])
          stage := rfl
          haystackLenReg := hlen.symm
          haystackBase := rfl
          jReg := rfl
          one_le := le_rfl
          le := by omega
          a_le := by omega
          ahead := Ahead.nil
          le_off := by simp
          off_lt := by
            have := c.nc_pos
            simp
            omega
          stream := by simp [hhaystack, hnil]
          tags := by simp [hnil]
          chars := fun k hk => by
            rw [hlen] at hk
            show s.memory.bytes ptr 1 (base.toNat + k) = _
            rw [Search.char, hh]
            simp [hk, bytes_one] }

/-- The software writes to the memory. -/
lemma Prepared.store {b : ℕ} (hp : Prepared p s) (ht : Told p b tr s) (hready : s.stage = .ready)
    (memory : ObjectMemory) : Prepared p { s with memory } ∧ ∃ b', Told p b' (tr ++ []) { s with memory } := by
  have hseen : decide (s.stage ≠ .idle) = true := by
    rw [hready]
    decide
  have hn := hp.n2b
  have hm := hp.mp2b
  rw [hseen] at hn hm
  constructor
  · exact
      { hp with
        n2b := by rw [hseen]; exact hn.change memory
        mp2b := by rw [hseen]; exact hm.change memory
        equipped := fun hne => { hp.equipped hne with } }
  · rw [List.append_nil]
    cases ht with
    | run _ hs =>
      have hrun := hs.stage
      rw [hready] at hrun
      cases hrun
    | rest done hrest hnil =>
      exact ⟨_, .rest done hrest (MemReader.beats_eq_nil_iff.mpr (MemReader.beats_eq_nil_iff.mp hnil))⟩

/-! ## The runs -/

/-- The call of `setup`. -/
lemma prepared_start (c : MPEngineConfig) (p : MPSetup) : Prepared p (p.start c) where
  n2b := by
    have hl : BRAMReadClient.Loads p.memory p.needlePointer p.m (fun k => p.memory.bytes p.needlePointer 1 (1 * k))
        false ((BRAMReadClient.reset : BRAMReadClient 10 1 c.nc).start p.needlePointer 0 0 (BitVec.ofNat _ p.m))
        fun _ => 0 := .start p.m_lt fun _ => rfl
    rw [← setWidth_ofNat] at hl
    exact hl
  mp2b := by
    have hl : BRAMReadClient.Loads p.memory p.mpNextPointer p.m (fun k => p.memory.bytes p.mpNextPointer 4 (4 * k))
        false ((BRAMReadClient.reset : BRAMReadClient 10 4 c.nc).start p.mpNextPointer 0 0 (BitVec.ofNat _ p.m))
        fun _ => 0 := .start p.m_lt fun _ => rfl
    rw [← setWidth_ofNat] at hl
    exact hl
  needleLenReg := toNat_ofNat_of_le (Nat.le_succ _) p.m_lt
  idle _ := ⟨rfl, rfl, rfl⟩
  equipped h := absurd rfl h

/-- **What is said in a run.** -/
theorem told (h : (mpEngine c).Reaches (p.start c) tr s) (hproper : ∀ h ∈ searches tr, h.Proper) :
    Prepared p s ∧ ∃ b, Told p b tr s := by
  revert hproper
  refine RuleSystem.Reaches.invariant
    (I := fun tr (s : MPEngine c) => (∀ h ∈ searches tr, h.Proper) → Prepared p s ∧ ∃ b, Told p b tr s) ?_ ?_ h
  · intro _
    exact ⟨prepared_start c p, _, .rest [] (fun hrun => by cases hrun) rfl⟩
  · intro tr s a s' es ih hstep hproper
    rw [searches_append] at hproper
    obtain ⟨hp, b, ht⟩ := ih fun h hmem => hproper h (List.mem_append_left _ hmem)
    by_cases ha : a.isInternal = true
    · obtain ⟨hp', b', -, ht'⟩ := hp.step ht ha hstep
      exact ⟨hp', b', ht'⟩
    · cases a
      case search =>
        exact hp.search ht hstep fun h hmem => hproper h (List.mem_append_right _ hmem)
      case store =>
        simp only [mpEngine] at hstep
        split at hstep
        on_goal 2 => cases hstep
        rename_i hready
        simp only [Option.some.injEq, Prod.mk.injEq] at hstep
        obtain ⟨rfl, rfl⟩ := hstep
        exact hp.store ht hready _
      all_goals exact absurd rfl ha

/-- **Where only a call can be made, the last search has ended.** -/
theorem Prepared.ready {b : ℕ} (hp : Prepared p s) (ht : Told p b tr s)
    (hnone : ∀ a : Action, a.isInternal = true → (mpEngine c).step s a = none) : s.stage = .ready := by
  have hconff : s.conff.items = [] := Fifo.deq_eq_none.mp (by simpa [mpEngine] using hnone .conf rfl)
  have hcompf : s.compf.items = [] := Fifo.deq_eq_none.mp (by simpa [mpEngine] using hnone .comp rfl)
  have hlocf : s.locf.items = [] := Fifo.deq_eq_none.mp (by simpa [mpEngine] using hnone .loc rfl)
  cases hstage : s.stage with
  | ready => rfl
  | idle =>
    -- the transfers are complete, and their ends can be seen
    have hn := hp.n2b
    have hm := hp.mp2b
    have hunseen : decide (s.stage ≠ .idle) = false := by simp [hstage]
    rw [hunseen] at hn hm
    have hnj : s.n2b.j.toNat = p.m + 1 := by
      by_contra hj
      obtain ⟨a, r, hr⟩ := hn.exists_step hj
      have hstep := hnone (.needle a) rfl
      simp only [mpEngine, hr, Option.map_some, reduceCtorEq] at hstep
    have hmj : s.mp2b.j.toNat = p.m + 1 := by
      by_contra hj
      obtain ⟨a, r, hr⟩ := hm.exists_step hj
      have hstep := hnone (.mpNext a) rfl
      simp only [mpEngine, hr, Option.map_some, reduceCtorEq] at hstep
    have hroom : s.conff.items.length < c.confSize := by
      rw [hconff]
      exact c.confSize_pos
    obtain ⟨n2b, hn2b⟩ := hn.exists_finish hnj
    obtain ⟨mp2b, hmp2b⟩ := hm.exists_finish hmj
    obtain ⟨conff, henq, -⟩ := Fifo.exists_enq hroom ()
    have hstep := hnone .finishSetup rfl
    simp [mpEngine, MPEngine.finishSetup, hn2b, hmp2b, henq] at hstep
  | run =>
    have hne : s.stage ≠ .idle := by
      rw [hstage]
      decide
    cases ht with
    | rest _ hrest => exact absurd hstage hrest
    | run _ hs =>
      rcases hs.exists_step (hp.equipped hne) hcompf hlocf with
        ⟨r, hr⟩ | ⟨r, hr⟩ | ⟨r, hr⟩ | ⟨r, hr⟩ | ⟨r, hr⟩ | ⟨r, hr⟩
      · have hstep := hnone .haystackReq rfl
        simp only [mpEngine, hr, Option.map_some, reduceCtorEq] at hstep
      · have hstep := hnone .haystackResp rfl
        simp only [mpEngine, hr, Option.map_some, reduceCtorEq] at hstep
      · have hstep := hnone .clientReq rfl
        simp only [mpEngine, hr, Option.map_some, reduceCtorEq] at hstep
      · have hstep := hnone .clientData rfl
        simp only [mpEngine, hr, Option.map_some, reduceCtorEq] at hstep
      · have hstep := hnone .matchNeedleReq rfl
        simp only [mpEngine, hr, Option.map_some, reduceCtorEq] at hstep
      · have hstep := hnone .matchNeedleResp rfl
        simp only [mpEngine, hr, reduceCtorEq] at hstep

/-- Only a call requests a search. -/
lemma searches_eq_nil {a : Action} (ha : a.isInternal = true) (hstep : (mpEngine c).step s a = some (s', es)) :
    searches es = [] := by
  cases a <;> simp only [mpEngine, Option.map_eq_some_iff, Prod.mk.injEq] at hstep
  case matchNeedleResp => exact (matchNeedleResp_keeps hstep).2
  case search => cases ha
  case store => cases ha
  all_goals
    obtain ⟨_, _, _, rfl⟩ := hstep
    rfl

/-- The rules, and the steps of the memory and of the readers of the queues. -/
def internal (c : MPEngineConfig) : RuleSystem (MPEngine c) Action Event :=
  (mpEngine c).guard fun _ a => a.isInternal = true

/-- **Every search ends**, with all its locations but that of a match at the end of the haystack. -/
theorem ends {b : ℕ} (hp : Prepared p s) (ht : Told p b tr s) :
    (internal c).Ends (fun tr' s' => s'.stage = .ready ∧ searches tr' = searches tr ∧
      tr' = (searches tr).flatMap fun h => transcript h (h.locations (p.found h))) tr s := by
  refine RuleSystem.Ends.of_bound
    (I := fun b tr' (s' : MPEngine c) => Prepared p s' ∧ Told p b tr' s' ∧ searches tr' = searches tr) ?_ ?_
    ⟨hp, ht, rfl⟩
  · intro b tr' s₁ a s₂ es hI hstep
    obtain ⟨hp₁, ht₁, hsearches⟩ := hI
    obtain ⟨ha, hstep⟩ := RuleSystem.guard_step.mp hstep
    obtain ⟨hp₂, b', hlt, ht₂⟩ := hp₁.step ht₁ ha hstep
    exact ⟨b', hlt, hp₂, ht₂, by rw [searches_append, searches_eq_nil ha hstep, List.append_nil, hsearches]⟩
  · intro b tr' s₁ hI hnone
    obtain ⟨hp₁, ht₁, hsearches⟩ := hI
    have hready : s₁.stage = .ready := hp₁.ready ht₁ fun a ha => by
      have hstep := hnone a
      simpa only [internal, RuleSystem.guard, if_pos ha] using hstep
    refine ⟨hready, hsearches, ?_⟩
    cases ht₁ with
    | run _ hs =>
      have hrun := hs.stage
      rw [hready] at hrun
      cases hrun
    | rest done _ _ => rw [← hsearches, searches_flatMap]

end MPEngine

open MPEngine

/-- The needle `ab` with its table, and a text. -/
def abcMemory : ObjectMemory := fun pointer k =>
  if pointer = 1 then [97, 98].getD k 0
  else if pointer = 2 then [0, 0, 0, 0, 0, 0, 0, 0, 1].getD k 0
  else if pointer = 3 then [99, 97, 98, 97, 98, 100, 99].getD k 0
  else 0

/-- The setup for `ab`, with the entries that `compute_MP_next` writes. -/
def abSetup : MPSetup where
  memory := abcMemory
  needlePointer := 1
  mpNextPointer := 2
  m := 2
  T i := if i = 2 then 1 else 0
  one_le_m := Nat.le_add_left 1 1
  m_lt := by decide
  falls := by
    intro i h₁ h₂
    obtain rfl | rfl : i = 1 ∨ i = 2 := by omega
    all_goals decide
  table := by
    intro i h₁ h₂
    obtain rfl | rfl : i = 1 ∨ i = 2 := by omega
    all_goals decide +kernel

/-- Beats of four characters. -/
def fourChars : MPEngineConfig := ⟨4, by decide, by decide, by decide, 2, 2, 2, by decide, by decide, by decide⟩

/-- The needle and the table are loaded. -/
def abLoaded : List Action :=
  [.loadReq, .clientReq, .clientData, .feedGearbox, .load, .load, .load].map .needle ++
    ((List.replicate 3 [BRAMReadClient.Action.loadReq, .clientReq, .clientData, .feedGearbox, .load]).flatten).map
      .mpNext ++
    [.finishSetup, .conf]

/-- A beat of the haystack comes. -/
def oneBeat : List Action := [.haystackReq, .clientReq, .clientData, .haystackResp]

/-- Answers are asked for and looked at, one by one. -/
def answers (n : ℕ) : List Action := (List.replicate n [Action.matchNeedleReq, .matchNeedleResp]).flatten

/-- A search in `ababd`, in which an answer is thrown away, and one in `ca`. -/
def twoSearches : MPEngine fourChars × List Event :=
  (mpEngine fourChars).run (abSetup.start fourChars) (abLoaded ++
    [.search 3 5 1] ++ oneBeat ++ oneBeat ++ answers 2 ++
    [.matchNeedleReq, .matchNeedleReq, .matchNeedleResp, .matchNeedleResp] ++ answers 6 ++
    [.loc, .loc, .comp, .haystackDrain, .haystackDrain, .haystackDrain] ++
    [.search 3 2 0] ++ oneBeat ++ answers 4)

/-- A search in `cab`. -/
def matchAtEnd : MPEngine fourChars × List Event :=
  (mpEngine fourChars).run (abSetup.start fourChars)
    (abLoaded ++ [.search 3 3 0] ++ oneBeat ++ answers 5)

end Xbsv
