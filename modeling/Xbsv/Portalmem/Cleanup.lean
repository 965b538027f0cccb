import Xbsv.Portalmem.Allocator

set_option relaxedAutoImplicit false
set_option autoImplicit false

/-!
# The error path of `portalmem_dmabuffer_create`

The whole function, with the objects that it obtains, reads and releases. The branch that returns a descriptor ends
with the scatter list: what the `dma_buf` framework does with the buffer is not modelled. A record that is read after
its release still has what was in it.

## Main definitions

* `Xbsv.Portalmem.dmabufferCreate` — the function.
* `Xbsv.Portalmem.Answers` — which allocations succeed.

## Main results

* `Xbsv.Portalmem.exists_loop` — how the loop ends, for every length.
* `Xbsv.Portalmem.released_iff` — when a call that returns `-ENOMEM` has released what it had obtained.
-/

namespace Xbsv.Portalmem

open Resources

/-! ## The source -/

/-- The answers of `kzalloc` (for the `pa_buffer`), `kmalloc` (for the `sg_table`), `alloc_pages` and
`sg_alloc_table`. -/
structure Answers where
  buffer : Bool
  table : Bool
  alloc : ℕ → Option ℕ
  sgTable : Bool

/-- What the function returns: `-ENOMEM`, or a descriptor of a buffer with this scatter list. -/
inductive Outcome
  | enomem
  | exported (sgl : List Sg)
  /-- The scatter list has ended before the blocks did. -/
  | fault
  deriving DecidableEq

/-- `free_buffer_page`: the call of `__free_pages` is commented out. -/
def freeBufferPage (_info : PageInfo) : List (Event Object) := []

/-- A turn of the loop over the blocks on the error path. `list_for_each_entry` takes the next record from this one
when the body has ended. -/
def cleanup (info : PageInfo) : List (Event Object) :=
  .read (.info info.id) :: freeBufferPage info ++ [.release (.info info.id), .read (.info info.id)]

/-- A turn of the loop that fills the scatter list. `list_for_each_entry_safe` takes the next record before the
body. -/
def consume (info : PageInfo) : List (Event Object) := [.read (.info info.id), .release (.info info.id)]

/-- The end of the function: the branch on `info`, and the error path. -/
def finish (sgTable : Bool) (s : State) : Outcome × List (Event Object) :=
  if s.info ≠ none then
    if sgTable then
      match s.table with
      | some sgl => (.exported sgl, s.trace ++ s.pages.flatMap consume)
      | none => (.fault, s.trace)
    else (.enomem, s.trace ++ .release .table :: s.pages.flatMap cleanup ++ [.release .buffer])
  else (.enomem, s.trace ++ s.pages.flatMap cleanup ++ [.release .buffer])

/-- `portalmem_dmabuffer_create`. -/
def dmabufferCreate (a : Answers) (fuel : ℕ) (len : BitVec 64) : Option (Outcome × List (Event Object)) :=
  if a.buffer then
    if a.table then
      (allocLoop a.alloc fuel (initial len [.obtain .buffer, .obtain .table])).map (finish a.sgTable)
    else some (.enomem, [.obtain .buffer, .refuse .table, .release .buffer])
  else some (.enomem, [.refuse .buffer])

/-! ## The loop -/

variable {alloc : ℕ → Option ℕ} {len : BitVec 64} {trace : List (Event Object)} {s : State}

/-- What the loop does to the objects. -/
def Gathered (e : Event Object) : Prop := ∀ o, e ≠ .release o ∧ e ≠ .read o

/-- The loop adds requests to the trace. -/
def Extends (trace : List (Event Object)) (s : State) : Prop := ∃ es, s.trace = trace ++ es ∧ ∀ e ∈ es, Gathered e

lemma Extends.append (hs : Extends trace s) {s' : State} (es : List (Event Object)) (hes : ∀ e ∈ es, Gathered e)
    (h : s'.trace = s.trace ++ es) : Extends trace s' := by
  obtain ⟨es₀, heq, hes₀⟩ := hs
  refine ⟨es₀ ++ es, by rw [h, heq, List.append_assoc], fun e he => ?_⟩
  rcases List.mem_append.mp he with hold | hnew
  · exact hes₀ e hold
  · exact hes e hnew

lemma extends_refuse (s : State) (order : ℕ) (hs : Extends trace s) : Extends trace (s.refuse order) := by
  refine hs.append [.refuse (.block s.requests order)] (fun e he o => ?_) rfl
  rw [List.mem_singleton.mp he]
  exact ⟨nofun, nofun⟩

lemma extends_meet (s : State) (page order : ℕ) (_ : order ∈ fitting s.sizeRemaining.toNat s.maxOrder)
    (hs : Extends trace s) : Extends trace (s.meet page order) := by
  refine hs.append [.obtain (.block s.requests order), .obtain (.info s.requests)] (fun e he o => ?_) rfl
  rcases List.mem_cons.mp he with rfl | he
  · exact ⟨nofun, nofun⟩
  · rw [List.mem_singleton.mp he]
    exact ⟨nofun, nofun⟩

/-- The length is rounded twice to the same multiple. -/
lemma roundUp_roundUp (len : BitVec 64) : roundUp (roundUp len pageSize) pageSize = roundUp len pageSize := by
  apply BitVec.eq_of_toNat_eq
  simp only [roundUp, pageSize, BitVec.toNat_ofNat]
  omega

/-- The invariant holds before the loop, whatever the length is. -/
lemma gathers_initial_of_pos (trace : List (Event Object)) (hpos : 0 < (roundUp len pageSize).toInt) :
    Gathers (roundUp len pageSize).toNat (initial len trace) ∧
      (initial len trace).sizeRemaining = roundUp len pageSize ∧ 0 < (roundUp len pageSize).toNat := by
  have hsize : (initial len trace).sizeRemaining = roundUp len pageSize := roundUp_roundUp len
  have hlt : (roundUp len pageSize).toNat < 2 ^ 63 := by
    rw [BitVec.toInt] at hpos
    split at hpos <;> omega
  have hdvd : pageSize ∣ (roundUp len pageSize).toNat := by
    rw [roundUp, BitVec.toNat_ofNat]
    exact (Nat.dvd_mod_iff ⟨2 ^ 52, rfl⟩).mpr (Nat.dvd_mul_left ..)
  refine ⟨⟨hlt, ?_, ?_, List.mem_cons_self, ?_, ?_, List.Pairwise.nil, rfl⟩, hsize, ?_⟩
  · rw [hsize, initial, List.map_nil, List.sum_nil, Nat.add_zero]
  · rw [hsize]
    exact hdvd
  · exact fun _ hp => absurd hp List.not_mem_nil
  · exact fun _ hp => absurd hp List.not_mem_nil
  · rw [BitVec.toInt_eq_toNat_of_lt (by omega)] at hpos
    omega

/-- **How the loop ends**: with the whole buffer, or without. -/
theorem exists_loop (alloc : ℕ → Option ℕ) (len : BitVec 64) (trace : List (Event Object)) :
    ∃ s, (∀ fuel, (roundUp len pageSize).toNat / pageSize < fuel → allocLoop alloc fuel (initial len trace) = some s) ∧
      Extends trace s ∧ (s.info ≠ none → s.pages ≠ []) ∧
      (s.info ≠ none ↔ 0 < (roundUp len pageSize).toInt ∧ Serves alloc 0 (roundUp len pageSize).toNat 8) := by
  by_cases hpos : 0 < (roundUp len pageSize).toInt
  · obtain ⟨hinit, hsize, hlen⟩ := gathers_initial_of_pos trace hpos
    obtain ⟨s, hloop, hend⟩ := exists_allocLoop alloc hinit
    rw [hsize] at hloop
    rw [hsize, if_neg (by omega)] at hend
    have hrun := hloop _ (Nat.lt_succ_self _)
    have hs := hinit.of_loop hrun
    have hextends : Extends trace s :=
      allocLoop_inv extends_refuse extends_meet (fun _ h => h)
        ⟨[], (List.append_nil _).symm, fun _ he => absurd he List.not_mem_nil⟩ hrun
    refine ⟨s, hloop, hextends, fun hinfo hnil => ?_, hend.info.trans ?_⟩
    · have hsum := hs.sum
      rw [hend.size hinfo, hnil, List.map_nil, List.sum_nil] at hsum
      omega
    · rw [hsize]
      exact ⟨fun h => ⟨hpos, h⟩, fun h => h.2⟩
  · refine ⟨initial len trace, fun fuel hfuel => ?_, ⟨[], (List.append_nil _).symm, ?_⟩, fun h => absurd rfl h, ?_⟩
    · have htest : ¬(0#64).slt (initial len trace).sizeRemaining = true := by
        rw [show (initial len trace).sizeRemaining = _ from roundUp_roundUp len, BitVec.slt, decide_eq_true_eq]
        exact hpos
      cases fuel with
      | zero => exact absurd hfuel (Nat.not_lt_zero _)
      | succ fuel => rw [allocLoop, if_neg htest]
    · exact fun _ he => absurd he List.not_mem_nil
    · exact ⟨fun h => absurd rfl h, fun h => absurd h.1 hpos⟩

/-! ## The whole function -/

/-- Where the loop does not gather the whole buffer the `sg_table` is lost. -/
lemma not_released_of_info_eq_none (hs : Extends [.obtain .buffer, .obtain .table] s) (hinfo : s.info = none)
    (sgTable : Bool) : ¬Released (finish sgTable s).2 := by
  obtain ⟨es, htrace, hes⟩ := hs
  have hfinish : (finish sgTable s).2 = s.trace ++ s.pages.flatMap cleanup ++ [Resources.Event.release .buffer] := by
    rw [finish, if_neg (fun h => h hinfo)]
  have hgot : .obtain .table ∈ (finish sgTable s).2 := by
    rw [hfinish, htrace]
    simp
  apply not_released_of_kept hgot
  rw [hfinish, htrace]
  intro hmem
  simp only [List.mem_append, List.mem_cons, List.not_mem_nil, or_false, List.mem_flatMap, reduceCtorEq, false_or,
    Event.release.injEq] at hmem
  rcases hmem with hloop | ⟨info, -, hclean⟩
  · exact (hes _ hloop .table).1 rfl
  · simp [cleanup, freeBufferPage] at hclean

/-- Where the scatter list is not there the records are read after their release. -/
lemma not_released_of_sgTable (hinfo : s.info ≠ none) (hpages : s.pages ≠ []) : ¬Released (finish false s).2 := by
  obtain ⟨info, pages, heq⟩ := List.exists_cons_of_ne_nil hpages
  have hfinish : (finish false s).2 = (s.trace ++ [Resources.Event.release .table, .read (.info info.id)]) ++
      .release (.info info.id) :: (.read (.info info.id) ::
        (pages.flatMap cleanup ++ [Resources.Event.release .buffer])) := by
    rw [finish, if_pos hinfo, heq]
    simp [cleanup, freeBufferPage]
  exact not_released_of_read hfinish List.mem_cons_self

/-- Without a buffer and without a table nothing is lost. -/
lemma released_of_early :
    Released [.refuse Object.buffer] ∧ Released [.obtain Object.buffer, .refuse .table, .release .buffer] := by
  constructor
  · refine ⟨fun o ho => by simp at ho, fun o pre post h hread => ?_⟩
    have hmem : Event.read o ∈ [Event.refuse Object.buffer] := by
      rw [h]
      simp [hread]
    simp at hmem
  · refine ⟨fun o ho => ?_, fun o pre post h hread => ?_⟩
    · simp only [List.mem_cons, Event.obtain.injEq, reduceCtorEq, List.not_mem_nil, or_false, or_self] at ho
      rw [ho]
      decide
    · have hmem : Event.read o ∈ [Event.obtain Object.buffer, .refuse .table, .release .buffer] := by
        rw [h]
        simp [hread]
      simp at hmem

/-- **When everything has been released.** A call returns; if it returns `-ENOMEM`, everything has been released just
when the first two allocations did not both succeed, or all the others did. -/
theorem released_iff (a : Answers) (len : BitVec 64) :
    ∃ r tr, (∀ fuel, (roundUp len pageSize).toNat / pageSize < fuel → dmabufferCreate a fuel len = some (r, tr)) ∧
      ((r = .enomem → Released tr) ↔
        (a.buffer = false ∨ a.table = false ∨
          0 < (roundUp len pageSize).toInt ∧ Serves a.alloc 0 (roundUp len pageSize).toNat 8 ∧ a.sgTable = true)) := by
  cases hbuffer : a.buffer with
  | false =>
    refine ⟨.enomem, [.refuse .buffer], fun fuel _ => ?_, fun _ => Or.inl rfl, fun _ _ => released_of_early.1⟩
    rw [dmabufferCreate, if_neg (by rw [hbuffer]; exact Bool.false_ne_true)]
  | true =>
    cases htable : a.table with
    | false =>
      refine ⟨.enomem, [.obtain .buffer, .refuse .table, .release .buffer], fun fuel _ => ?_,
        fun _ => Or.inr (Or.inl rfl), fun _ _ => released_of_early.2⟩
      rw [dmabufferCreate, if_pos hbuffer, if_neg (by rw [htable]; exact Bool.false_ne_true)]
    | true =>
      obtain ⟨s, hloop, hextends, hpages, hserves⟩ := exists_loop a.alloc len [.obtain .buffer, .obtain .table]
      refine ⟨(finish a.sgTable s).1, (finish a.sgTable s).2, fun fuel hfuel => ?_, ?_⟩
      · rw [dmabufferCreate, if_pos hbuffer, if_pos htable, hloop fuel hfuel]
        rfl
      · by_cases hinfo : s.info = none
        · have henomem : (finish a.sgTable s).1 = .enomem := by
            rw [finish, if_neg (fun h => h hinfo)]
          constructor
          · exact fun h => absurd (h henomem) (not_released_of_info_eq_none hextends hinfo _)
          · rintro (h | h | ⟨hpos, h, -⟩)
            · cases h
            · cases h
            · exact absurd hinfo (hserves.mpr ⟨hpos, h⟩)
        · obtain ⟨hpos, hserved⟩ := hserves.mp hinfo
          cases hsg : a.sgTable with
          | true =>
            refine ⟨fun _ => Or.inr (Or.inr ⟨hpos, hserved, rfl⟩), fun _ h => ?_⟩
            rw [finish, if_pos hinfo, if_pos rfl] at h
            split at h <;> cases h
          | false =>
            have henomem : (finish false s).1 = .enomem := by
              rw [finish, if_pos hinfo]
              rfl
            constructor
            · exact fun h => absurd (h henomem) (not_released_of_sgTable hinfo (hpages hinfo))
            · rintro (h | h | ⟨-, -, h⟩)
              · cases h
              · cases h
              · cases h

/-- The first request for a page is refused: the `sg_table` is lost. -/
theorem not_released_first_page :
    dmabufferCreate ⟨true, true, fun _ => none, true⟩ 2 4096 =
        some (.enomem, [.obtain .buffer, .obtain .table, .refuse (.block 0 0), .release .buffer]) ∧
      ¬Released [.obtain Object.buffer, .obtain .table, .refuse (.block 0 0), .release .buffer] := by
  refine ⟨by decide, fun h => ?_⟩
  have hcount := h.1 .table (by decide)
  cases hcount

end Xbsv.Portalmem
