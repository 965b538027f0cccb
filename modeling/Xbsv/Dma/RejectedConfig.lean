import Xbsv.Dma.MemServer

set_option relaxedAutoImplicit false
set_option autoImplicit false

/-!
# Rejected configuration calls

Method `sglist` of the three memory servers reports a bad pointer, but then writes the page-table
entry all the same, at the pointer truncated to thirteen bits. A call that is reported leaves every
translation as it was only if the page it writes does not matter: no translation reads the entry, or
each one that does finds the same page there as before.

## Main definitions

* `Xbsv.SGList.Unchanged` — two tables translate every request alike.
* `Xbsv.SGList.Harmless` — what is written to an entry does not matter.

## Main results

* `Xbsv.rejected_sglist_iff` — a reported call changes nothing exactly when it is harmless.
* `Xbsv.not_unchanged_rejected` — a reported call for object 33 that redirects object 1.
-/

namespace Xbsv

open Rules

namespace SGList

/-- The two tables report the same error for every request, and translate every request that some
region covers to the same address. -/
def Unchanged (addrWidth : ℕ) (undef : Page → Offset → BitVec 40) (t t' : Tables) : Prop :=
  ∀ req, lookupError t' req = lookupError t req ∧
    (t.mapped req → (translate undef t' req : BitVec addrWidth) = translate undef t req)

/-- The page-table entry that translates a request. -/
def Tables.entry (t : Tables) (req : ReqTup) : BitVec 13 :=
  pageIndex req.ptr (t.select req).pbase (t.select req).idxOffset

/-- The address at which a page of the given size begins. -/
def pageBase (addrWidth : ℕ) (pageSize : BitVec 2) (page : Page) : BitVec addrWidth :=
  physAddr (fun _ _ => 0) page ⟨pageSize, 0⟩

/-- Writing `page` to an entry does not matter: for every request that the entry translates, the page
begins where the present one does. -/
def Harmless (addrWidth : ℕ) (t : Tables) (entry : BitVec 13) (page : Page) : Prop :=
  ∀ req, t.mapped req → t.entry req = entry →
    pageBase addrWidth (t.select req).offset.pageSize page =
      pageBase addrWidth (t.select req).offset.pageSize (t.pages entry)

/-! ## One entry -/

/-- A page size is selected for the requests that some region covers. -/
lemma pageSize_ne_zero {t : Tables} {req : ReqTup} (h : t.mapped req) :
    (t.select req).offset.pageSize ≠ 0 := by
  simp only [Tables.mapped, Bool.or_eq_true] at h
  simp only [Tables.select, selectPage]
  split
  · simp
  · split
    · simp
    · split
      · simp
      · simp_all

/-- Two pages give the same address at some offset exactly when they begin at the same address. -/
lemma physAddr_eq_iff {addrWidth : ℕ} (undef : Page → Offset → BitVec 40) {p q : Page} {o : Offset}
    (ho : o.pageSize ≠ 0) :
    (physAddr undef p o : BitVec addrWidth) = physAddr undef q o ↔
      pageBase addrWidth o.pageSize p = pageBase addrWidth o.pageSize q := by
  -- below the page size the two addresses agree anyway, above it they do not depend on the offset
  have hbits : ∀ {m k : ℕ} (a b : BitVec m) (v : BitVec k),
      ((a ++ v).setWidth addrWidth = (b ++ v).setWidth addrWidth ↔
        (a ++ (0 : BitVec k)).setWidth addrWidth = (b ++ (0 : BitVec k)).setWidth addrWidth) := by
    intro m k a b v
    constructor
    all_goals
      intro h
      ext i hi
      have hb := congrArg (fun x => x.getLsbD i) h
      simp only [BitVec.getElem_setWidth, BitVec.getLsbD_setWidth, BitVec.getLsbD_append, hi,
        decide_true, Bool.true_and] at hb ⊢
      split
      · rfl
      · rename_i hlt
        simpa [hlt] using hb
  obtain ⟨size, value⟩ := o
  have hcases : size = 1 ∨ size = 2 ∨ size = 3 := by
    have : ∀ x : BitVec 2, x ≠ 0 → x = 1 ∨ x = 2 ∨ x = 3 := by decide
    exact this size ho
  rcases hcases with rfl | rfl | rfl
  · simpa [physAddr, pageBase] using hbits p q (value.setWidth 12)
  · simpa [physAddr, pageBase] using hbits (p.setWidth 24) (q.setWidth 24) (value.setWidth 16)
  · simpa [physAddr, pageBase] using hbits (p.setWidth 20) (q.setWidth 20) value

/-- Writing one entry changes no translation exactly when it is harmless. -/
lemma unchanged_sglist_iff {addrWidth : ℕ} (undef : Page → Offset → BitVec 40) (t : Tables)
    (ptr : BitVec 32) (paddr : BitVec 40) (len : BitVec 32) :
    Unchanged addrWidth undef t (t.sglist ptr paddr len) ↔
      Harmless addrWidth t (ptr.setWidth 13) (paddr.setWidth 28) := by
  have htrans : ∀ req, (translate undef (t.sglist ptr paddr len) req : BitVec addrWidth) =
      physAddr undef (if t.entry req = ptr.setWidth 13 then paddr.setWidth 28
        else t.pages (t.entry req)) (t.select req).offset := by
    intro req
    -- the region tables alone decide which entry and which page size a request gets
    have hsel : (t.sglist ptr paddr len).select req = t.select req := rfl
    have hpage : (t.sglist ptr paddr len).pages (t.entry req) =
        if t.entry req = ptr.setWidth 13 then paddr.setWidth 28 else t.pages (t.entry req) := by
      simp only [Tables.sglist, Function.update_apply]
    rw [← hpage]
    simp only [translate, hsel]
    rfl
  constructor
  · intro h req hm he
    have ht := (h req).2 hm
    rw [htrans, if_pos he] at ht
    rw [← he]
    exact (physAddr_eq_iff undef (pageSize_ne_zero hm)).mp ht
  · intro h req
    refine ⟨rfl, fun hm => ?_⟩
    rw [htrans]
    split
    · rename_i he
      refine (physAddr_eq_iff undef (pageSize_ne_zero hm)).mpr ?_
      rw [h req hm he, ← he]
      rfl
    · rfl

end SGList

/-! ## The servers -/

open SGList

section Servers

variable {S A E SR SW AR AW ER EW : Type} {addrWidth n : ℕ} {undef : Page → Offset → BitVec 40}

/-- `sglist` reports a bad pointer, and writes its entry. -/
lemma configMemServer_sglist {port : Fin 2} {errorType : DmaErrorType}
    {master : Fin n → Server (SglAddrServer (SGList.State addrWidth) n) ReqTup (BitVec addrWidth) →
      RuleSystem (SglAddrServer (SGList.State addrWidth) n × S) A E}
    {s s' : ConfigServer S addrWidth n} {pref : BitVec 32} {addr : BitVec 64} {len : BitVec 32}
    {es : List (ConfigServer.Event E addrWidth n)} (hbad : badPointer pref)
    (h : (configMemServer undef port errorType master).step s (.sglist pref addr len) =
      some (s', es)) :
    s'.dmaErrorFifo.items = s.dmaErrorFifo.items ++ [⟨errorType, pref⟩] ∧
      s'.sgl.server.tables = s.sgl.server.tables.sglist pref (addr.setWidth 40) len := by
  simp only [configMemServer, ConfigServer.sglist, ConfigServer.sglistCall, SGList.State.config,
    hbad, if_true, enqError, Fifo.enq_eq_some, bind, pure, Option.bind_eq_some_iff,
    Option.some.injEq, Prod.mk.injEq] at h
  obtain ⟨s₁, ⟨errs, ⟨-, herrs⟩, server, rfl, rfl⟩, rfl, rfl⟩ := h
  exact ⟨herrs, rfl⟩

/-- The same for the read-write server. -/
lemma configMemServerRW_sglist
    {R : RuleSystem (ConfigServer SR addrWidth n) (ConfigServer.Action AR n)
      (ConfigServer.Event ER addrWidth n)}
    {W : RuleSystem (ConfigServer SW addrWidth n) (ConfigServer.Action AW n)
      (ConfigServer.Event EW addrWidth n)}
    {s s' : ConfigServerRW SR SW addrWidth n} {pref : BitVec 32} {addr : BitVec 64}
    {len : BitVec 32} {es : List (ConfigServerRW.Event ER EW addrWidth n)} (hbad : badPointer pref)
    (h : (configMemServerRW undef R W).step s (.sglist pref addr len) = some (s', es)) :
    s'.dmaErrorFifo.items = s.dmaErrorFifo.items ++ [⟨.badPointer1, pref⟩] ∧
      s'.unit.tables = s.unit.tables.sglist pref (addr.setWidth 40) len := by
  simp only [configMemServerRW, ConfigServerRW.sglist, ConfigServer.sglistCall,
    SGList.State.config, hbad, if_true, enqError, Fifo.enq_eq_some, bind, pure,
    Option.bind_eq_some_iff, Option.some.injEq, Prod.mk.injEq] at h
  obtain ⟨s₁, ⟨errs, ⟨-, herrs⟩, server, rfl, rfl⟩, rfl, rfl⟩ := h
  exact ⟨herrs, rfl⟩

/-- **When a rejected call changes nothing.** In every state of each of the three memory servers, and
for every call of `sglist` with a bad pointer: the call is reported, and the unit translates every
request after it as before if and only if the page written to the entry of the truncated pointer is
harmless there. -/
theorem rejected_sglist_iff {τ κ ε τ' κ' ε' : Type} {numClients numTags numClients' numTags' : ℕ}
    (n addrWidth dataWidthBytes : ℕ) (undef : Page → Offset → BitVec 40)
    (tg : TagGen τ κ ε numClients numTags) (tg' : TagGen τ' κ' ε' numClients' numTags')
    (stream : Fin n → Fin numClients' → ℕ → ObjectData (dataWidthBytes * 8))
    (pref : BitVec 32) (addr : BitVec 64) (len : BitVec 32) (hbad : badPointer pref) :
    (∀ (s s' : ConfigServerRW (MemRead τ numClients numTags addrWidth dataWidthBytes)
          (MemWrite τ' numClients' numTags' addrWidth) addrWidth n) es,
        (configMemServerRW undef (configMemServerR n undef tg dataWidthBytes)
          (configMemServerW n undef tg' stream)).step s (.sglist pref addr len) = some (s', es) →
        s'.dmaErrorFifo.items = s.dmaErrorFifo.items ++ [⟨.badPointer1, pref⟩] ∧
          (Unchanged addrWidth undef s.unit.tables s'.unit.tables ↔
            Harmless addrWidth s.unit.tables (pref.setWidth 13) ((addr.setWidth 40).setWidth 28))) ∧
    (∀ (s s' : ConfigServer (MemRead τ numClients numTags addrWidth dataWidthBytes) addrWidth n) es,
        (configMemServerR n undef tg dataWidthBytes).step s (.sglist pref addr len) =
          some (s', es) →
        s'.dmaErrorFifo.items = s.dmaErrorFifo.items ++ [⟨.badPointer2, pref⟩] ∧
          (Unchanged addrWidth undef s.sgl.server.tables s'.sgl.server.tables ↔
            Harmless addrWidth s.sgl.server.tables (pref.setWidth 13)
              ((addr.setWidth 40).setWidth 28))) ∧
    (∀ (s s' : ConfigServer (MemWrite τ' numClients' numTags' addrWidth) addrWidth n) es,
        (configMemServerW n undef tg' stream).step s (.sglist pref addr len) = some (s', es) →
        s'.dmaErrorFifo.items = s.dmaErrorFifo.items ++ [⟨.badPointer3, pref⟩] ∧
          (Unchanged addrWidth undef s.sgl.server.tables s'.sgl.server.tables ↔
            Harmless addrWidth s.sgl.server.tables (pref.setWidth 13)
              ((addr.setWidth 40).setWidth 28))) := by
  refine ⟨fun s s' es h => ?_, fun s s' es h => ?_, fun s s' es h => ?_⟩
  · obtain ⟨herr, ht⟩ := configMemServerRW_sglist hbad h
    refine ⟨herr, ?_⟩
    rw [ht, unchanged_sglist_iff]
  · obtain ⟨herr, ht⟩ := configMemServer_sglist hbad h
    refine ⟨herr, ?_⟩
    rw [ht, unchanged_sglist_iff]
  · obtain ⟨herr, ht⟩ := configMemServer_sglist hbad h
    refine ⟨herr, ?_⟩
    rw [ht, unchanged_sglist_iff]

/-- Empty block RAMs. -/
def blankTables : Tables := ⟨fun _ => ⟨0, 0⟩, fun _ => ⟨0, 0⟩, fun _ => ⟨0, 0⟩, fun _ => 0⟩

/-- With no object configured a rejected call for object 33 changes nothing. -/
theorem rejected_sglist_iff_blank :
    ∃ s' es, (configMemServerR 1 (fun _ _ => 0) ( mkTagGenIO 1) 4).step
        (.reset blankTables (.reset Fifo.empty) : ConfigServer _ 40 1) (.sglist 0x2100 9 0x1000) =
          some (s', es) ∧
      Unchanged 40 (fun _ _ => 0) blankTables s'.sgl.server.tables := by
  refine ⟨_, _, rfl, ?_⟩
  refine ((rejected_sglist_iff 1 40 4 (fun _ _ => 0) ( mkTagGenIO 1) ( mkTagGenIO 1)
    (fun _ _ _ => ⟨0, 0, false⟩) 0x2100 9 0x1000 (by decide)).2.1
    (.reset blankTables (.reset Fifo.empty)) _ _ rfl).2.mpr ?_
  intro req hm
  simp [Tables.mapped, Tables.conds, regionConds, ConfigServer.reset, SglAddrServer.reset,
    SGList.State.reset, blankTables] at hm

/-- Object 1 gets one page of 4 KB, at `0x5000`. -/
def configObject1 {A : Type} (sglist : BitVec 32 → BitVec 64 → BitVec 32 → A)
    (region : BitVec 32 → BitVec 64 → BitVec 64 → BitVec 64 → A) : List A :=
  [sglist 0x100 0x5 0x1000, region 1 0 0 0x100]

/-- A read server with object 1. -/
def configuredRead :=
  (configMemServerR 1 (fun _ _ => 0) ( mkTagGenIO 1) 4).run
    (.reset blankTables (.reset Fifo.empty) : ConfigServer _ 40 1) (configObject1 .sglist .region)

/-- A write server with object 1. -/
def configuredWrite :=
  (configMemServerW 1 (fun _ _ => 0) ( mkTagGenIO 1) fun _ _ _ =>
      (⟨0, 0, false⟩ : ObjectData (4 * 8))).run
    (.reset blankTables (.reset Fifo.empty) : ConfigServer _ 40 1) (configObject1 .sglist .region)

/-- A read-write server with object 1. -/
def configuredRW :=
  (configMemServerRW (fun _ _ => 0) (configMemServerR 1 (fun _ _ => 0) ( mkTagGenIO 1) 4)
      (configMemServerW 1 (fun _ _ => 0) ( mkTagGenIO 1) fun _ _ _ =>
        (⟨0, 0, false⟩ : ObjectData (4 * 8)))).run
    (.reset blankTables (.reset Fifo.empty) (.reset Fifo.empty) : ConfigServerRW _ _ 40 1)
    (configObject1 .sglist .region)

/-- The first page of object 1. -/
def objectOne : ReqTup := ⟨1, 0⟩

/-- **A rejected call that redirects an object.** In each of the three servers object 1 is configured
and then `sglist` is called for entry 0 of object 33. The call is reported; entry 0 of object 33 is,
truncated, that of object 1, whose first page moves from `0x5000` to `0x9000`. -/
theorem not_unchanged_rejected :
    ((configMemServerR 1 (fun _ _ => 0) ( mkTagGenIO 1) 4).Reaches
        (.reset blankTables (.reset Fifo.empty) : ConfigServer _ 40 1) configuredRead.2
        configuredRead.1 ∧
      ∃ s' es, (configMemServerR 1 (fun _ _ => 0) ( mkTagGenIO 1) 4).step configuredRead.1
          (.sglist 0x2100 9 0x1000) = some (s', es) ∧
        s'.dmaErrorFifo.items = [⟨.badPointer2, 0x2100⟩] ∧
        (translate (fun _ _ => 0) configuredRead.1.sgl.server.tables objectOne : BitVec 40) =
          0x5000 ∧
        (translate (fun _ _ => 0) s'.sgl.server.tables objectOne : BitVec 40) = 0x9000 ∧
        ¬ Unchanged 40 (fun _ _ => 0) configuredRead.1.sgl.server.tables s'.sgl.server.tables) ∧
    ((configMemServerW 1 (fun _ _ => 0) ( mkTagGenIO 1) fun _ _ _ =>
          (⟨0, 0, false⟩ : ObjectData (4 * 8))).Reaches
        (.reset blankTables (.reset Fifo.empty) : ConfigServer _ 40 1) configuredWrite.2
        configuredWrite.1 ∧
      ∃ s' es, (configMemServerW 1 (fun _ _ => 0) ( mkTagGenIO 1) fun _ _ _ =>
            (⟨0, 0, false⟩ : ObjectData (4 * 8))).step configuredWrite.1
          (.sglist 0x2100 9 0x1000) = some (s', es) ∧
        s'.dmaErrorFifo.items = [⟨.badPointer3, 0x2100⟩] ∧
        ¬ Unchanged 40 (fun _ _ => 0) configuredWrite.1.sgl.server.tables s'.sgl.server.tables) ∧
    ((configMemServerRW (fun _ _ => 0) (configMemServerR 1 (fun _ _ => 0) ( mkTagGenIO 1) 4)
          (configMemServerW 1 (fun _ _ => 0) ( mkTagGenIO 1) fun _ _ _ =>
            (⟨0, 0, false⟩ : ObjectData (4 * 8)))).Reaches
        (.reset blankTables (.reset Fifo.empty) (.reset Fifo.empty) : ConfigServerRW _ _ 40 1)
        configuredRW.2 configuredRW.1 ∧
      ∃ s' es, (configMemServerRW (fun _ _ => 0)
            (configMemServerR 1 (fun _ _ => 0) ( mkTagGenIO 1) 4)
            (configMemServerW 1 (fun _ _ => 0) ( mkTagGenIO 1) fun _ _ _ =>
              (⟨0, 0, false⟩ : ObjectData (4 * 8)))).step configuredRW.1
          (.sglist 0x2100 9 0x1000) = some (s', es) ∧
        s'.dmaErrorFifo.items = [⟨.badPointer1, 0x2100⟩] ∧
        ¬ Unchanged 40 (fun _ _ => 0) configuredRW.1.unit.tables s'.unit.tables) := by
  refine ⟨⟨RuleSystem.reaches_run _ _, _, _, rfl, by decide +kernel, by decide +kernel,
      by decide +kernel, fun h => ?_⟩,
    ⟨RuleSystem.reaches_run _ _, _, _, rfl, by decide +kernel, fun h => ?_⟩,
    ⟨RuleSystem.reaches_run _ _, _, _, rfl, by decide +kernel, fun h => ?_⟩⟩
  · exact absurd ((h objectOne).2 (by decide +kernel)) (by decide +kernel)
  · exact absurd ((h objectOne).2 (by decide +kernel)) (by decide +kernel)
  · exact absurd ((h objectOne).2 (by decide +kernel)) (by decide +kernel)

end Servers

end Xbsv
