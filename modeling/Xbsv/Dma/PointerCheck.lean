import Xbsv.Dma.MemServer

set_option relaxedAutoImplicit false
set_option autoImplicit false

/-!
# The pointer check

`bad_pointer` shifts its argument by eight bits and compares the result with the number of objects.
That fits the argument of `sglist`, an object number times 256 plus an index, but for the bound, which
lets one number too many pass. It does not fit the pointer of a client's request, which is an object
number already: all pointers below `33 * 256` pass. What passes is truncated to the five bits of an
`SGListId`, or to the thirteen bits of a page-table address.

## Main definitions

* `Xbsv.ObjectExact` — a request is rejected, or put to the address server under the number of its
  own object.
* `Xbsv.WindowExact` — a call of `sglist` is reported, or writes into the window of its own object.

## Main results

* `Xbsv.pointerCheck_iff` — when these hold.
* `Xbsv.not_pointerCheck_alias` — two objects that are confused.
-/

namespace Xbsv

open Rules SGList

/-! ## The two truncations -/

/-- The number of an object is exact for the first 32. -/
lemma setWidth_toNat_eq_iff (p : BitVec 32) :
    (p.setWidth 5 : SGListId).toNat = p.toNat ↔ p.toNat < 32 := by
  rw [BitVec.toNat_setWidth]
  omega

/-- The window of a page-table address is exact for the first 32 objects. -/
lemma pageWindow_eq_iff (p : BitVec 32) :
    (p.setWidth 13 : BitVec 13).toNat / 256 = (p >>> 8).toNat ↔ (p >>> 8).toNat < 32 := by
  rw [BitVec.toNat_setWidth, BitVec.toNat_ushiftRight, Nat.shiftRight_eq_div_pow]
  omega

/-! ## What the check is for -/

variable {σ τ κ ε S E : Type} {numClients numTags addrWidth dataWidthBytes n : ℕ}

/-- The events of `loadClient` for a request: it is reported, with its pointer, or it is put to the
address server under the number of the object that it names. The events are those of a module that
shows the events of its front end through `view`. -/
def ObjectExact (view : FrontEnd.Event ε numClients numTags addrWidth → E)
    (errorType : DmaErrorType) (client : Fin numClients) (req : ObjectRequest) (es : List E) :
    Prop :=
  es = [view (.reject client req ⟨errorType, req.pointer⟩)] ∨
    ∃ tup : ReqTup, es = [view (.accept client req tup)] ∧ tup.ptr.toNat = req.pointer.toNat

/-- A call of `sglist` from `s` to `s'`: it is reported, or the page-table entries outside the window
of its object are as before. -/
def WindowExact (errorType : DmaErrorType) (pref : BitVec 32) (s s' : ConfigServer S addrWidth n) :
    Prop :=
  s'.dmaErrorFifo.items = s.dmaErrorFifo.items ++ [⟨errorType, pref⟩] ∨
    ∀ entry : BitVec 13, entry.toNat / 256 ≠ (pref >>> 8).toNat →
      s'.sgl.server.tables.pages entry = s.sgl.server.tables.pages entry

/-- `loadClient` in the front end, for either module. -/
lemma loadClient_objectExact_iff {sgl : Server σ ReqTup (BitVec addrWidth)}
    {tg : TagGen τ κ ε numClients numTags} {errorType : DmaErrorType} {w w' : σ}
    {f f' : FrontEnd τ numClients numTags addrWidth} {client : Fin numClients} {req : ObjectRequest}
    {es : List (FrontEnd.Event ε numClients numTags addrWidth)}
    {view : FrontEnd.Event ε numClients numTags addrWidth → E} (hv : Function.Injective view)
    (h : FrontEnd.Fires sgl tg errorType w f (.loadClient client req) w' f' es) :
    ObjectExact view errorType client req (es.map view) ↔
      badPointer req.pointer = true ∨ req.pointer.toNat < 32 := by
  cases h with
  | reject bad enq => simp [ObjectExact, bad]
  | accept good tag enq put =>
    simp only [ObjectExact, good, Bool.false_eq_true, false_or]
    rw [← setWidth_toNat_eq_iff]
    constructor
    · rintro (he | ⟨tup, he, htup⟩)
      · cases hv (List.cons.inj he).1
      · cases hv (List.cons.inj he).1
        exact htup
    · intro hp
      exact .inr ⟨_, rfl, hp⟩

/-- `sglist` writes the entry of the truncated pointer, and reports what the check rejects. -/
lemma sglist_eq_some {errorType : DmaErrorType} {s s' : ConfigServer S addrWidth n}
    {pref : BitVec 32} {addr : BitVec 64} {len : BitVec 32}
    (h : s.sglist errorType pref addr len = some s') :
    s'.dmaErrorFifo.items = s.dmaErrorFifo.items ++
        (if badPointer pref then [⟨errorType, pref⟩] else []) ∧
      s'.sgl.server.tables.pages = Function.update s.sgl.server.tables.pages (pref.setWidth 13)
        ((addr.setWidth 40).setWidth 28) := by
  simp only [ConfigServer.sglist, ConfigServer.sglistCall, SGList.State.config, bind, pure,
    Option.bind_eq_some_iff, Option.some.injEq] at h
  obtain ⟨errs, he, server, rfl, rfl⟩ := h
  refine ⟨?_, rfl⟩
  cases hb : badPointer pref with
  | true =>
    simp only [hb, if_true, enqError, Fifo.enq_eq_some] at he
    simp [he.2]
  | false =>
    simp only [hb, enqError] at he
    cases he
    simp

/-- `sglist` keeps to the window of its object, whatever it writes, exactly for the pointers that are
reported and those of the first 32 objects.

**Proof sketch.** The entry written is the truncated pointer, which lies in the window of the object
modulo 32. For an unreported pointer of another object, a server whose page table is zero shows the
write. -/
lemma sglist_windowExact_iff (m : S) (addrWidth n : ℕ) (errorType : DmaErrorType)
    (pref : BitVec 32) :
    (∀ (s s' : ConfigServer S addrWidth n) (addr : BitVec 64) (len : BitVec 32),
        s.sglist errorType pref addr len = some s' → WindowExact errorType pref s s') ↔
      badPointer pref = true ∨ (pref >>> 8).toNat < 32 := by
  constructor
  · intro hall
    by_contra hne
    obtain ⟨hb, hw⟩ := not_or.mp hne
    rw [Bool.not_eq_true] at hb
    -- a server with an empty page table, and an address that is not zero
    let t : Tables := ⟨fun _ => ⟨0, 0⟩, fun _ => ⟨0, 0⟩, fun _ => ⟨0, 0⟩, fun _ => 0⟩
    let s : ConfigServer S addrWidth n := .reset t m
    have hs : ∃ s', s.sglist errorType pref 1 0 = some s' := by
      simp [ConfigServer.sglist, hb, enqError, ConfigServer.sglistCall, SGList.State.config]
    obtain ⟨s', hs⟩ := hs
    obtain ⟨he, hp⟩ := sglist_eq_some hs
    rcases hall s s' 1 0 hs with hr | hr
    · rw [he, hb] at hr
      simp at hr
    · have := hr (pref.setWidth 13) (by rw [Ne, pageWindow_eq_iff]; exact hw)
      rw [hp, Function.update_self] at this
      have h1 : ((1 : BitVec 64).setWidth 40).setWidth 28 = (0 : BitVec 28) := this
      exact absurd h1 (by decide)
  · intro hc s s' addr len hs
    obtain ⟨he, hp⟩ := sglist_eq_some hs
    rcases hc with hb | hw
    · left
      rw [he, hb]
      rfl
    · right
      intro entry hne
      rw [hp]
      refine Function.update_of_ne ?_ _ _
      rintro rfl
      exact hne ((pageWindow_eq_iff pref).mpr hw)

/-- Requests are put to the address server as `reqTup` says. -/
lemma tup_of_accept {sgl : Server σ ReqTup (BitVec addrWidth)}
    {tg : TagGen τ κ ε numClients numTags} {errorType : DmaErrorType} {w w' : σ}
    {f f' : FrontEnd τ numClients numTags addrWidth} {a : FrontEnd.Action κ numClients}
    {es : List (FrontEnd.Event ε numClients numTags addrWidth)}
    (h : FrontEnd.Fires sgl tg errorType w f a w' f' es) {client : Fin numClients}
    {req : ObjectRequest} {tup : ReqTup} (he : .accept client req tup ∈ es) :
    tup = FrontEnd.reqTup req := by
  cases h with
  | reject bad enq => simp at he
  | accept good tag enq put =>
    obtain ⟨-, rfl, rfl⟩ : client = _ ∧ req = _ ∧ tup = _ := by simpa using he
    rfl
  | checked get tag deq enq => simp at he
  | dmaError deq => simp at he
  | tagRule step => simp at he

/-- In a trace, requests of different objects among the first 32 go by different numbers. -/
def NoAlias (view : FrontEnd.Event ε numClients numTags addrWidth → E) (tr : List E) : Prop :=
  ∀ client req tup client' req' tup', view (.accept client req tup) ∈ tr →
    view (.accept client' req' tup') ∈ tr → req.pointer.toNat < 32 → req'.pointer.toNat < 32 →
    req.pointer ≠ req'.pointer → tup.ptr ≠ tup'.ptr

/-- Traces whose requests are put as `reqTup` says have no aliases below 32. -/
lemma noAlias_of_forall {view : FrontEnd.Event ε numClients numTags addrWidth → E} {tr : List E}
    (h : ∀ client req tup, view (.accept client req tup) ∈ tr → tup = FrontEnd.reqTup req) :
    NoAlias view tr := by
  intro client req tup client' req' tup' he he' hp hp' hne
  rw [h client req tup he, h client' req' tup' he']
  intro hptr
  have h5 : (req.pointer.setWidth 5 : SGListId).toNat = (req'.pointer.setWidth 5 : SGListId).toNat :=
    congrArg BitVec.toNat hptr
  rw [(setWidth_toNat_eq_iff _).mpr hp, (setWidth_toNat_eq_iff _).mpr hp'] at h5
  exact hne (BitVec.eq_of_toNat_eq h5)

section Theorem

variable {ι δ : Type} (sgl : Server σ ReqTup (BitVec addrWidth))
  (tg : TagGen τ κ ε numClients numTags) (env : RuleSystem σ ι δ)
  (stream : Fin numClients → ℕ → ObjectData (dataWidthBytes * 8))

/-- **The pointer check, exactly.** In every state, a request that `loadClient` of the read or of the
write module takes is reported or goes by the number of its own object exactly when its pointer is
reported or below 32; a call of `sglist` is reported or keeps to the window of its own object exactly
when its pointer is reported or names one of the first 32 objects. Along every run, requests with
different pointers below 32 are never translated under one number. -/
theorem pointerCheck_iff (m : S) :
    (∀ (p p' : σ × MemRead τ numClients numTags addrWidth dataWidthBytes) (es : List _)
        (client : Fin numClients) (req : ObjectRequest),
      MemRead.step sgl tg p (.front (.loadClient client req)) = some (p', es) →
      (ObjectExact .front .badPointer4 client req es ↔
        badPointer req.pointer = true ∨ req.pointer.toNat < 32)) ∧
    (∀ (p p' : σ × MemWrite τ numClients numTags addrWidth) (es : List _)
        (client : Fin numClients) (req : ObjectRequest),
      MemWrite.step sgl tg stream p (.front (.loadClient client req)) = some (p', es) →
      (ObjectExact .front .badPointer5 client req es ↔
        badPointer req.pointer = true ∨ req.pointer.toNat < 32)) ∧
    (∀ (errorType : DmaErrorType) (pref : BitVec 32),
      (∀ (s s' : ConfigServer S addrWidth n) (addr : BitVec 64) (len : BitVec 32),
        s.sglist errorType pref addr len = some s' → WindowExact errorType pref s s') ↔
      badPointer pref = true ∨ (pref >>> 8).toNat < 32) ∧
    (∀ w₀ g₀ tr p, ((memRead dataWidthBytes sgl tg).behind env).Reaches (w₀, .reset g₀) tr p →
      NoAlias .front tr) ∧
    (∀ w₀ g₀ tr p, ((memWrite sgl tg stream).behind env).Reaches (w₀, .reset g₀) tr p →
      NoAlias .front tr) := by
  refine ⟨?_, ?_, fun errorType pref => sglist_windowExact_iff m addrWidth n errorType pref, ?_, ?_⟩
  · rintro ⟨w, s⟩ ⟨w', s'⟩ es client req h
    cases MemRead.fires_of_step h with
    | front fires => exact loadClient_objectExact_iff (fun _ _ he => MemRead.Event.front.inj he) fires
  · rintro ⟨w, s⟩ ⟨w', s'⟩ es client req h
    cases MemWrite.fires_of_step h with
    | front fires =>
      exact loadClient_objectExact_iff (fun _ _ he => MemWrite.Event.front.inj he) fires
  · intro w₀ g₀ tr p h
    refine noAlias_of_forall ?_
    refine h.invariant_behind (I := fun tr _ => ∀ client req tup,
      MemRead.Event.front (.accept client req tup) ∈ tr → tup = FrontEnd.reqTup req) (by simp) ?_
    intro tr w s a w' s' es ih hs client req tup he
    rcases List.mem_append.mp he with he | he
    · exact ih client req tup he
    · rcases (MemRead.fires_of_step hs).front_cases with ⟨b, fs, fires, rfl⟩ | ⟨hno, -⟩
      · exact tup_of_accept fires (by simpa using he)
      · exact absurd he (hno _)
  · intro w₀ g₀ tr p h
    refine noAlias_of_forall ?_
    refine h.invariant_behind (I := fun tr _ => ∀ client req tup,
      MemWrite.Event.front (.accept client req tup) ∈ tr → tup = FrontEnd.reqTup req) (by simp) ?_
    intro tr w s a w' s' es ih hs client req tup he
    rcases List.mem_append.mp he with he | he
    · exact ih client req tup he
    · rcases (MemWrite.fires_of_step hs).front_cases with ⟨b, fs, fires, rfl⟩ | ⟨hno, -⟩
      · exact tup_of_accept fires (by simpa using he)
      · exact absurd he (hno _)

end Theorem

/-- A read module with one client of four-byte beats, after requests for the objects 0 and 32. -/
def aliasRun :=
  (memRead 4 (Server.queue 9 fun r : ReqTup => r.off) ( mkTagGenIO 1)).run
    (Fifo.empty, .reset Fifo.empty)
    [.front (.loadClient 0 ⟨0, 0, 4, 0⟩), .front (.loadClient 0 ⟨32, 0, 4, 0⟩)]

/-- **Aliases.** Objects 0 and 32 pass the check and go by the same number; and a call of `sglist`
for object 32 is not reported and writes the first entry of object 0. -/
theorem not_pointerCheck_alias :
    (memRead 4 (Server.queue 9 fun r : ReqTup => r.off) ( mkTagGenIO 1)).Reaches
        (Fifo.empty, .reset Fifo.empty) aliasRun.2 aliasRun.1 ∧
      aliasRun.2 = [.front (.accept 0 ⟨0, 0, 4, 0⟩ ⟨0, 0⟩), .front (.accept 0 ⟨32, 0, 4, 0⟩ ⟨0, 0⟩)] ∧
      ¬ ∀ (s s' : ConfigServer Unit 40 1) (addr : BitVec 64) (len : BitVec 32),
        s.sglist .badPointer1 (32 * 256) addr len = some s' →
        WindowExact .badPointer1 (32 * 256) s s' := by
  refine ⟨RuleSystem.reaches_run _ _, by decide +kernel, ?_⟩
  rw [sglist_windowExact_iff ()]
  decide

end Xbsv
