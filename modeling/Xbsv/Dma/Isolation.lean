import Xbsv.Dma.Translation

set_option relaxedAutoImplicit false
set_option autoImplicit false

/-!
# Isolation of objects in the page table

All objects share one page table of `2 ^ 13` entries and three region tables of `2 ^ 5` rows.
Object `h` owns rows `h` and the window of 256 entries from `256 h`; registering object `g` with
`n` entries writes row `g mod 32` and the entries `256 g, …, 256 g + n` modulo `2 ^ 13`, the last
one being the end-of-list entry. Nothing in the software or in the hardware bounds `g` or `n`, so
the writes of a later object can come round into the window of an earlier one. They do not when
`256 g + n < 2 ^ 13` for every object after the first.

## Main definitions

* `Xbsv.SGList.Isolated` — along every run that registers the given lists one after the other,
  what translates the offsets of an object stays as it was right after its registration.
* `Xbsv.SGList.Fits` — no registration after the first comes round the page table.

## Main results

* `Xbsv.SGList.isolated_of_fits` — registrations that fit are isolated.
* `Xbsv.SGList.not_isolated_handle32` — the 33rd registration redirects the first object.
-/

namespace Xbsv.SGList

open Rules

variable {addrWidth : ℕ} (undef : Page → Offset → BitVec 40)

/-- The rows and the page-table entry that translate a request, and the translation, are the same
in both tables. -/
structure SameTranslation (addrWidth : ℕ) (undef : Page → Offset → BitVec 40) (t t' : Tables)
    (req : ReqTup) : Prop where
  reg8 : t'.reg8 req.ptr = t.reg8 req.ptr
  reg4 : t'.reg4 req.ptr = t.reg4 req.ptr
  reg0 : t'.reg0 req.ptr = t.reg0 req.ptr
  page : t'.pages (pageIndex req.ptr (t.select req).pbase (t.select req).idxOffset) =
    t.pages (pageIndex req.ptr (t.select req).pbase (t.select req).idxOffset)
  translate : (translate undef t' req : BitVec addrWidth) = translate undef t req

/-- Object isolation for a sequence of registrations: let the unit, interleaved with any other
traffic, first execute the registrations up to that of `es`, under handle `pre.length`, and then
some of the later ones. Every offset of that object is translated as it was in between. -/
def Isolated (addrWidth : ℕ) (undef : Page → Offset → BitVec 40) (regs : List (List SgEntry)) :
    Prop :=
  ∀ (t₀ : Tables) (pre : List (List SgEntry)) (es : List SgEntry) (later rest : List (List SgEntry)),
    regs = pre ++ es :: (later ++ rest) →
    ∀ (s s' : State addrWidth) (tr tr' : List (Event addrWidth)),
      (mmu undef).Reaches (State.reset addrWidth t₀) tr s →
      configCalls tr = (references 0 (pre ++ [es])).map DmaCall.toConfig →
      (mmu undef).Reaches s tr' s' →
      configCalls tr' =
        (references (BitVec.ofNat 32 (pre.length + 1)) later).map DmaCall.toConfig →
      ∀ off : BitVec 40, off.toNat < totalLen es →
        SameTranslation addrWidth undef s.tables s'.tables
          ⟨(BitVec.ofNat 32 pre.length).setWidth 5, off⟩

/-- Every registration after the first stays below the end of the page table: `g` is its handle,
and the end-of-list entry is written at `256 g + n`. -/
def Fits (regs : List (List SgEntry)) : Prop :=
  ∀ g es, regs[g]? = some es → 1 ≤ g → 256 * g + es.length < 2 ^ 13

/-! ## Frame -/

/-- Rows of other objects are not written by a registration. -/
lemma calls_sendFdToPortal_regions_of_ne {id : BitVec 32} (es : List SgEntry) {r : SGListId}
    (h : r ≠ id.setWidth 5) (t : Tables) :
    (t.calls (sendFdToPortal id es)).reg8 r = t.reg8 r ∧
      (t.calls (sendFdToPortal id es)).reg4 r = t.reg4 r ∧
      (t.calls (sendFdToPortal id es)).reg0 r = t.reg0 r := by
  -- the `sglist` calls leave the region tables alone
  have hsg : ∀ (l : List (SgEntry × ℕ)) (t : Tables),
      let t' := t.calls (l.map fun x => entryCall id x.1 x.2)
      t'.reg8 = t.reg8 ∧ t'.reg4 = t.reg4 ∧ t'.reg0 = t.reg0 := by
    intro l
    induction l with
    | nil => intro t; exact ⟨rfl, rfl, rfl⟩
    | cons x l ih => intro t; exact ih _
  rw [sendFdToPortal_eq, calls_append]
  obtain ⟨h8, h4, h0⟩ := hsg (es.zipIdx 0) t
  simp only [Tables.calls, List.map_cons, List.map_nil, List.foldl_cons, List.foldl_nil,
    DmaCall.toConfig, Tables.apply, Tables.region, Tables.sglist, Function.update_of_ne h] at h8 h4 h0 ⊢
  rw [h8, h4, h0]
  exact ⟨rfl, rfl, rfl⟩

/-- The window of an object: the page-table addresses that its requests can look up. -/
lemma pageIndex_toNat (r : SGListId) (pbase idx : BitVec 8) :
    (pageIndex r pbase idx).toNat = 256 * r.toNat + (pbase.toNat + idx.toNat) % 256 := by
  rw [pageIndex, toNat_append_eq, BitVec.toNat_add]
  omega

/-- **One later registration.** Registering object `g` with `n` entries, `256 g + n < 2 ^ 13`,
changes nothing for an object with a smaller number.

**Proof sketch.** Row `g` is not row `h`, and the entries written are numbered from `256 g` on,
above the window of `h`. -/
lemma sameTranslation_sendFdToPortal {h g : ℕ} (hlt : h < g) {es : List SgEntry}
    (hfit : 256 * g + es.length < 2 ^ 13) (t : Tables) (off : BitVec 40) :
    SameTranslation addrWidth undef t (t.calls (sendFdToPortal (BitVec.ofNat 32 g) es))
      ⟨(BitVec.ofNat 32 h).setWidth 5, off⟩ := by
  set t' := t.calls (sendFdToPortal (BitVec.ofNat 32 g) es) with ht'
  have hg : (BitVec.ofNat 32 g).toNat = g := by simp; omega
  have hr : ((BitVec.ofNat 32 h).setWidth 5).toNat = h := by simp; omega
  have hne : (BitVec.ofNat 32 h).setWidth 5 ≠ (BitVec.ofNat 32 g).setWidth 5 := by
    intro he
    have := congrArg BitVec.toNat he
    rw [hr, BitVec.toNat_setWidth, hg] at this
    omega
  obtain ⟨h8, h4, h0⟩ := calls_sendFdToPortal_regions_of_ne es hne t
  have hpage : ∀ pbase idx : BitVec 8,
      t'.pages (pageIndex ((BitVec.ofNat 32 h).setWidth 5) pbase idx) =
        t.pages (pageIndex ((BitVec.ofNat 32 h).setWidth 5) pbase idx) := by
    intro pbase idx
    refine calls_pages_of_forall_ne (fun c hc ha => ?_) t
    obtain ⟨i, hi, he⟩ := pageWrite_sendFdToPortal hc ha
    have := congrArg BitVec.toNat he
    rw [pageIndex_toNat, pageAddr_toNat, hr, hg] at this
    omega
  have hsel : t'.select ⟨(BitVec.ofNat 32 h).setWidth 5, off⟩ =
      t.select ⟨(BitVec.ofNat 32 h).setWidth 5, off⟩ := by
    simp only [Tables.select, Tables.conds, Tables.idxOffsets, ht', h8, h4, h0]
  refine ⟨h8, h4, h0, hpage _ _, ?_⟩
  simp only [translate, hsel, hpage]

lemma SameTranslation.refl (t : Tables) (req : ReqTup) :
    SameTranslation addrWidth undef t t req := ⟨rfl, rfl, rfl, rfl, rfl⟩

lemma SameTranslation.trans {undef : Page → Offset → BitVec 40} {t t' t'' : Tables} {req : ReqTup}
    (h : SameTranslation addrWidth undef t t' req)
    (h' : SameTranslation addrWidth undef t' t'' req) :
    SameTranslation addrWidth undef t t'' req := by
  have hsel : t'.select req = t.select req := by
    simp only [Tables.select, Tables.conds, Tables.idxOffsets, h.reg8, h.reg4, h.reg0]
  refine ⟨h'.reg8.trans h.reg8, h'.reg4.trans h.reg4, h'.reg0.trans h.reg0, ?_,
    h'.translate.trans h.translate⟩
  rw [← h.page, ← hsel]
  exact h'.page

/-- **All later registrations.**

**Proof sketch.** Induction on the later registrations, with their first handle as a variable. -/
lemma sameTranslation_references {h : ℕ} {off : BitVec 40} (later : List (List SgEntry)) :
    ∀ (g : ℕ) (t : Tables), h < g →
      (∀ k es, later[k]? = some es → 256 * (g + k) + es.length < 2 ^ 13) →
      SameTranslation addrWidth undef t (t.calls (references (BitVec.ofNat 32 g) later))
        ⟨(BitVec.ofNat 32 h).setWidth 5, off⟩ := by
  induction later with
  | nil =>
    intro g t _ _
    exact .refl undef t _
  | cons es later ih =>
    intro g t hg hfit
    have hhandle : (reference (BitVec.ofNat 32 g) es).2 = BitVec.ofNat 32 (g + 1) := by
      simp only [reference, BitVec.ofNat_add]
      rfl
    rw [references, hhandle, calls_append]
    refine (sameTranslation_sendFdToPortal undef hg (by simpa using hfit 0 es rfl) t off).trans ?_
    refine ih (g + 1) _ (by omega) fun k es' hk => ?_
    have := hfit (k + 1) es' (by simpa using hk)
    omega

/-- **Object isolation.** Registrations that all stay below the end of the page table leave the
translation of every object registered before them alone, over whole runs.

**Proof sketch.** The tables of the two states are those of the calls (`mmu_run_tables`), and the
calls of the later registrations are `sameTranslation_references`. -/
theorem isolated_of_fits {regs : List (List SgEntry)} (hfits : Fits regs) :
    Isolated addrWidth undef regs := by
  intro t₀ pre es later rest hregs s s' tr tr' _ _ hrun hcfg off _
  have ht : s'.tables =
      s.tables.calls (references (BitVec.ofNat 32 (pre.length + 1)) later) := by
    rw [mmu_run_tables undef hrun, hcfg]
    rfl
  rw [ht]
  refine sameTranslation_references undef later (pre.length + 1) s.tables (by omega) ?_
  intro k es' hk
  have hk' : regs[pre.length + 1 + k]? = some es' := by
    rw [hregs, List.getElem?_append_right (by omega),
      show pre.length + 1 + k - pre.length = k + 1 by omega, List.getElem?_cons_succ,
      List.getElem?_append_left (List.getElem?_eq_some_iff.mp hk).1, hk]
  exact hfits _ _ hk' (by omega)

/-! ## Registrations on concrete inputs -/

/-- A buffer of one 4 KB page. -/
def onePage (k : ℕ) : List SgEntry := [⟨BitVec.ofNat 64 (0x1000 * (k + 1)), 0x1000⟩]

/-- The actions by which the unit executes calls one after the other, sending each configuration
response at once. -/
def callActions (cs : List DmaCall) : List Action :=
  cs.flatMap fun c => match c with
    | .sglist .. => [.config c.toConfig]
    | .region .. => [.config c.toConfig, .sendConfigResp]

/-- The unit after reset and the registration of `onePage 0`. -/
def firstPage : State 40 × List (Event 40) :=
  (mmu fun _ _ => 0).run (State.reset 40 .zero) (callActions (references 0 [onePage 0]))

/-- The same unit after the registration of `n` more pages. -/
def morePages (n : ℕ) : State 40 × List (Event 40) :=
  (mmu fun _ _ => 0).run firstPage.1
    (callActions (references 1 ((List.range n).map fun k => onePage (k + 1))))

/-- Isolation applies to two registrations: the first object is translated as before. -/
theorem isolated_of_fits_two_pages :
    SameTranslation 40 (fun _ _ => 0) firstPage.1.tables (morePages 1).1.tables ⟨0, 0x123⟩ := by
  have hfits : Fits [onePage 0, onePage 1] := by
    intro g es hg _
    have hlt := (List.getElem?_eq_some_iff.mp hg).1
    have hlen : es.length = 1 := by
      obtain rfl | rfl : g = 0 ∨ g = 1 := by simp at hlt; omega
      · cases hg; rfl
      · cases hg; rfl
    simp at hlt
    omega
  exact isolated_of_fits (fun _ _ => 0) hfits .zero [] (onePage 0) [onePage 1] [] rfl firstPage.1
    (morePages 1).1 firstPage.2 (morePages 1).2 (RuleSystem.reaches_run _ _) (by decide +kernel)
    (RuleSystem.reaches_run _ _) (by decide +kernel) 0x123 (by decide +kernel)

/-- **The 33rd registration redirects the first object**: handle 32 is truncated to row 0 and to
the window of object 0, so offset 0 of the first object is translated to the 33rd page. -/
theorem not_isolated_handle32 :
    ¬ Isolated 40 (fun _ _ => 0) ((List.range 33).map onePage) := by
  intro h
  have hsame := h .zero [] (onePage 0) ((List.range 32).map fun k => onePage (k + 1)) []
    (by decide +kernel) firstPage.1 (morePages 32).1 firstPage.2 (morePages 32).2
    (RuleSystem.reaches_run _ _) (by decide +kernel) (RuleSystem.reaches_run _ _)
    (by decide +kernel) 0 (by decide +kernel)
  have hbefore : (translate (fun _ _ => 0) firstPage.1.tables ⟨0, 0⟩ : BitVec 40) = 0x1000 := by
    decide +kernel
  have hafter : (translate (fun _ _ => 0) (morePages 32).1.tables ⟨0, 0⟩ : BitVec 40) = 0x21000 := by
    decide +kernel
  have he := hsame.translate
  rw [show (BitVec.ofNat 32 ([] : List (List SgEntry)).length).setWidth 5 = (0 : SGListId) from rfl,
    hbefore, hafter] at he
  exact absurd he (by decide)

end Xbsv.SGList
