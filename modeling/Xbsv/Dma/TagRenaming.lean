import Xbsv.Dma.TagGen

set_option relaxedAutoImplicit false
set_option autoImplicit false

/-!
# The renaming generator as a map

`mkTagGenOO` is to give every client and original tag one rename tag while it has requests
outstanding, and no two of them the same. The lookup, the choice of a free tag and the update of the
map are three steps, and requests in between see a map that is out of date: a second request of the
same client and tag does not find the first, two requests that both need a new tag find the same one
free, and a tag that was found may be returned and given away before it is used. The count of a tag
may also come round.

None of this happens when a request is made only while no other is between the steps, or finds its
tag in the map while none waits for a new one, and when no count passes its largest value. The
invariant says that the map together with the tags chosen between the steps is one-to-one.

## Main definitions

* `Xbsv.TagUse`, `Xbsv.tagUse` — the generator and a user that returns each tag it was given at most
  once.
* `Xbsv.TagUse.outstanding` — the requests under a tag that are not returned yet.
* `Xbsv.TagUse.OneToOne` — one rename tag for each client and original tag.
* `Xbsv.TagUse.careful` — the steps that keep the map up to date.
* `Xbsv.TagUse.Tracks`, `Xbsv.TagUse.Renames` — the invariant.

## Main results

* `Xbsv.oneToOne_of_careful` — along runs of such steps renaming is one-to-one.
* `Xbsv.not_oneToOne_pipelined` — runs of two requests in which it is not.
-/

namespace Xbsv

open Rules

/-- The renaming generator and its user. `unreturned` is, for each tag, how often the user may still
call `return_tag`. -/
structure TagUse (numClients numTags : ℕ) where
  gen : TagGenOO numClients numTags
  unreturned : Fin numTags → ℕ

namespace TagUse

variable {numClients numTags : ℕ}

/-- The state after reset. -/
def reset (numClients numTags : ℕ) : TagUse numClients numTags :=
  ⟨.reset numClients numTags, fun _ => 0⟩

/-- The methods and the rules of the generator. -/
inductive Action (numClients numTags : ℕ)
  | tagRequest (client : Fin numClients) (origTag : BitVec 6)
  | tagResponse
  | returnTag (t : Fin numTags)
  | rule (k : TagGenOO.Rule)
  deriving DecidableEq, Repr

/-- What a run makes visible. `tagResponse` shows the tag given together with the request that it is
given to, and `returned` a return that `return_tag_rule` has processed. -/
inductive Event (numClients numTags : ℕ)
  | tagRequest (x : Fin numClients × BitVec 6)
  | tagResponse (t : Fin numTags) (x : Fin numClients × BitVec 6)
  | returnTag (t : Fin numTags)
  | returned (t : Fin numTags)
  deriving DecidableEq, Repr

/-- One method or rule. -/
def step (p : TagUse numClients numTags) :
    Action numClients numTags → Option (TagUse numClients numTags × List (Event numClients numTags))
  | .tagRequest client origTag => do
    let gen ← p.gen.tagRequest client origTag
    return ({ p with gen }, [.tagRequest (client, origTag)])
  | .tagResponse => do
    let request ← p.gen.requestFifo1.first
    let (t, gen) ← p.gen.tagResponse
    return (⟨gen, Function.update p.unreturned t (p.unreturned t + 1)⟩, [.tagResponse t request.2])
  | .returnTag t =>
    if p.unreturned t = 0 then none else do
      let gen ← p.gen.returnTag t
      return (⟨gen, Function.update p.unreturned t (p.unreturned t - 1)⟩, [.returnTag t])
  | .rule k => do
    let (gen, es) ← (mkTagGenOO numClients numTags).step p.gen k
    return ({ p with gen }, es.map .returned)

end TagUse

/-- `mkTagGenOO` with a user that calls `return_tag` at most once for each tag it was given. -/
def tagUse (numClients numTags : ℕ) :
    RuleSystem (TagUse numClients numTags) (TagUse.Action numClients numTags)
      (TagUse.Event numClients numTags) :=
  ⟨TagUse.step⟩

namespace TagUse

variable {numClients numTags : ℕ}

/-! ## Outstanding requests -/

/-- The request that a tag is given to. -/
def Event.given? (t : Fin numTags) : Event numClients numTags → Option (Fin numClients × BitVec 6)
  | .tagResponse t' x => if t' = t then some x else none
  | _ => none

/-- The requests that a tag was given to, oldest first. -/
def given (t : Fin numTags) (tr : List (Event numClients numTags)) :
    List (Fin numClients × BitVec 6) := tr.filterMap (Event.given? t)

/-- The requests under a tag whose return has not been processed. Returns name the tag only; under one
tag they come in the order of the requests. -/
def outstanding (t : Fin numTags) (tr : List (Event numClients numTags)) :
    List (Fin numClients × BitVec 6) := (given t tr).drop (tr.count (.returned t))

/-- **Renaming is one-to-one** on the outstanding requests: two of them have the same rename tag if and
only if they have the same client and original tag. -/
def OneToOne (tr : List (Event numClients numTags)) : Prop :=
  ∀ t t' x x', x ∈ outstanding t tr → x' ∈ outstanding t' tr → (t = t' ↔ x = x')

/-- A step that keeps the map up to date: a request is made while no other is between the steps of the
generator, or it finds its tag in the map and none waits for a new one; and a response is not taken
for a tag whose count is at its largest value. -/
def careful (p : TagUse numClients numTags) : Action numClients numTags → Bool
  | .tagRequest client origTag =>
    (p.gen.requestFifo0.items.isEmpty && p.gen.requestFifo1.items.isEmpty) ||
      ((findElem (some (client, origTag)) p.gen.clientMap).isSome &&
        p.gen.requestFifo0.items.all fun e => e.1.isSome)
  | .tagResponse => p.gen.requestFifo1.items.head?.all fun e => p.gen.tagRegs e.1 != BitVec.allOnes 5
  | _ => true

section Outstanding

variable {t t' : Fin numTags} {x : Fin numClients × BitVec 6}
  {tr : List (Event numClients numTags)}

/-- A step that neither gives a tag nor processes a return. -/
lemma outstanding_append {es : List (Event numClients numTags)} (hg : given t es = [])
    (hr : es.count (.returned t) = 0) : outstanding t (tr ++ es) = outstanding t tr := by
  unfold outstanding
  rw [given, List.filterMap_append, ← given, ← given, hg, List.append_nil, List.count_append, hr,
    Nat.add_zero]

/-- A tag is given to one more request. -/
lemma outstanding_tagResponse (hle : tr.count (.returned t) ≤ (given t tr).length) :
    outstanding t (tr ++ [Event.tagResponse t' x]) =
      outstanding t tr ++ if t' = t then [x] else [] := by
  have hgiven : given t (tr ++ [Event.tagResponse t' x]) =
      given t tr ++ if t' = t then [x] else [] := by
    by_cases h : t' = t
    · simp [given, Event.given?, h]
    · simp [given, Event.given?, h]
  unfold outstanding
  rw [hgiven, List.count_append, List.count_singleton, if_neg (by simp), Nat.add_zero,
    List.drop_append_of_le_length hle]

/-- A return is processed: that of the oldest request under the tag. -/
lemma outstanding_returned :
    outstanding t (tr ++ [Event.returned t']) =
      if t' = t then (outstanding t tr).tail else outstanding t tr := by
  have hgiven : given t (tr ++ [Event.returned t']) = given t tr := by
    simp [given, List.filterMap_cons, Event.given?]
  unfold outstanding
  rw [hgiven, List.count_append]
  by_cases h : t' = t
  · simp [h, List.tail_drop]
  · have hne : (Event.returned t' : Event numClients numTags) ≠ .returned t := by simpa using h
    simp [h, hne]

end Outstanding

/-! ## The invariant -/

/-- A request has a tag: in the map, or between the steps of the generator. -/
def Assigned (g : TagGenOO numClients numTags) (t : Fin numTags) (x : Fin numClients × BitVec 6) :
    Prop :=
  g.clientMap t = some x ∨ (some t, x) ∈ g.requestFifo0.items ∨ (t, x) ∈ g.requestFifo1.items

/-- The bookkeeping of a run: the counts, the returns and the entries of the map are those of the
outstanding requests. -/
structure Tracks (tr : List (Event numClients numTags)) (p : TagUse numClients numTags) : Prop where
  /-- No more returns are processed than tags given. -/
  returned_le : ∀ t, tr.count (.returned t) ≤ (given t tr).length
  counts : ∀ t, (p.gen.tagRegs t).toNat = (outstanding t tr).length
  /-- The returns still to come, and those not processed yet. -/
  returns : ∀ t, p.gen.returnFifo.items.count t + p.unreturned t = (outstanding t tr).length
  mapped : ∀ t, ∀ x ∈ outstanding t tr, p.gen.clientMap t = some x
  valid : ∀ t x, p.gen.clientMap t = some x → x ∈ outstanding t tr

/-- The invariant of careful runs. -/
structure Renames (tr : List (Event numClients numTags)) (p : TagUse numClients numTags) : Prop
    extends Tracks tr p where
  oneToOne : ∀ t t' x x', Assigned p.gen t x → Assigned p.gen t' x' → (t = t' ↔ x = x')
  /-- A request that waits for a new tag is alone, and not in the map. -/
  fresh : ∀ x, (none, x) ∈ p.gen.requestFifo0.items → p.gen.requestFifo0.items = [(none, x)] ∧
    p.gen.requestFifo1.items = [] ∧ ∀ t, p.gen.clientMap t ≠ some x

section Steps

variable {p p' : TagUse numClients numTags} {tr : List (Event numClients numTags)}

/-- Before the first request. -/
lemma renames_reset : Renames [] (reset numClients numTags) where
  returned_le _ := Nat.zero_le _
  counts _ := rfl
  returns _ := rfl
  mapped _ _ hx := by cases hx
  valid _ _ hx := by cases hx
  oneToOne := by
    rintro t t' x x' (h | h | h)
    all_goals cases h
  fresh _ hx := by cases hx

/-- Steps that leave the counts and the map alone. -/
lemma Tracks.frame (h : Tracks tr p) {es : List (Event numClients numTags)}
    (hg : ∀ t, given t es = []) (hr : ∀ t, es.count (.returned t) = 0)
    (hregs : p'.gen.tagRegs = p.gen.tagRegs) (hmap : p'.gen.clientMap = p.gen.clientMap)
    (hret : ∀ t, p'.gen.returnFifo.items.count t + p'.unreturned t =
      p.gen.returnFifo.items.count t + p.unreturned t) : Tracks (tr ++ es) p' := by
  have hout : ∀ t, outstanding t (tr ++ es) = outstanding t tr :=
    fun t => outstanding_append (hg t) (hr t)
  refine ⟨?_, ?_, ?_, ?_, ?_⟩
  · intro t
    rw [List.count_append, hr, given, List.filterMap_append, ← given, ← given, hg, List.append_nil]
    exact h.returned_le t
  · intro t
    rw [hout, hregs]
    exact h.counts t
  · intro t
    rw [hout, hret]
    exact h.returns t
  · intro t
    rw [hout, hmap]
    exact h.mapped t
  · intro t x
    rw [hout, hmap]
    exact h.valid t x

/-- A tag is given to a request, of which the map says the same or nothing. -/
lemma Tracks.tagResponse (h : Tracks tr p) {t : Fin numTags} {x : Fin numClients × BitVec 6}
    (hmax : p.gen.tagRegs t ≠ BitVec.allOnes 5) (hsame : ∀ y, p.gen.clientMap t = some y → y = x)
    (hregs : p'.gen.tagRegs = Function.update p.gen.tagRegs t (p.gen.tagRegs t + 1))
    (hmap : p'.gen.clientMap = Function.update p.gen.clientMap t (some x))
    (hret : p'.gen.returnFifo = p.gen.returnFifo)
    (hun : p'.unreturned = Function.update p.unreturned t (p.unreturned t + 1)) :
    Tracks (tr ++ [Event.tagResponse t x]) p' := by
  have hout : ∀ t', outstanding t' (tr ++ [Event.tagResponse t x]) =
      outstanding t' tr ++ if t = t' then [x] else [] :=
    fun t' => outstanding_tagResponse (h.returned_le t')
  refine ⟨?_, ?_, ?_, ?_, ?_⟩
  · intro t'
    have hle := h.returned_le t'
    rw [List.count_append, List.count_singleton, if_neg (by simp), Nat.add_zero, given,
      List.filterMap_append, List.length_append, ← given]
    omega
  · intro t'
    rw [hout, List.length_append, ← h.counts t', hregs]
    by_cases ht : t = t'
    · subst ht
      rw [if_pos rfl, Function.update_self, TagGenOO.toNat_add_one hmax]
      rfl
    · rw [if_neg ht, Function.update_of_ne (Ne.symm ht)]
      rfl
  · intro t'
    rw [hout, List.length_append, ← h.returns t', hret, hun]
    by_cases ht : t = t'
    · subst ht
      rw [if_pos rfl, Function.update_self, Nat.add_assoc]
      rfl
    · rw [if_neg ht, Function.update_of_ne (Ne.symm ht)]
      rfl
  · intro t' y hy
    rw [hout, List.mem_append] at hy
    rw [hmap]
    by_cases ht : t = t'
    · subst ht
      rw [Function.update_self]
      rcases hy with hy | hy
      · rw [hsame y (h.mapped t y hy)]
      · rw [if_pos rfl, List.mem_singleton] at hy
        rw [hy]
    · rw [Function.update_of_ne (Ne.symm ht)]
      rcases hy with hy | hy
      · exact h.mapped t' y hy
      · rw [if_neg ht] at hy
        cases hy
  · intro t' y hy
    rw [hmap] at hy
    rw [hout, List.mem_append]
    by_cases ht : t = t'
    · subst ht
      rw [Function.update_self] at hy
      right
      rw [if_pos rfl, Option.some.inj hy]
      exact List.mem_cons_self
    · rw [Function.update_of_ne (Ne.symm ht)] at hy
      exact .inl (h.valid t' y hy)

/-- A return is processed.

**Proof sketch.** There is an outstanding request under the tag, so the count does not come round. The
entry of the map goes exactly with the last request. -/
lemma Tracks.returned (h : Tracks tr p) {t : Fin numTags} {q : Fifo 2 (Fin numTags)}
    (hd : p.gen.returnFifo.items = t :: q.items)
    (hregs : p'.gen.tagRegs = Function.update p.gen.tagRegs t (p.gen.tagRegs t - 1))
    (hmap : p'.gen.clientMap = if p.gen.tagRegs t = 1 then Function.update p.gen.clientMap t none
      else p.gen.clientMap)
    (hret : p'.gen.returnFifo = q) (hun : p'.unreturned = p.unreturned) :
    Tracks (tr ++ [Event.returned t]) p' := by
  have hout : ∀ t', outstanding t' (tr ++ [Event.returned t]) =
      if t = t' then (outstanding t' tr).tail else outstanding t' tr :=
    fun t' => outstanding_returned
  have hlen := h.counts t
  have hpos : 0 < (outstanding t tr).length := by
    have hr := h.returns t
    rw [hd, List.count_cons_self] at hr
    omega
  have hone : p.gen.tagRegs t = 1 ↔ (outstanding t tr).length = 1 := by
    rw [← hlen]
    constructor
    · intro h1
      rw [h1]
      rfl
    · intro h1
      exact BitVec.eq_of_toNat_eq h1
  refine ⟨?_, ?_, ?_, ?_, ?_⟩
  · intro t'
    have hle := h.returned_le t'
    have hgiven : given t' (tr ++ [Event.returned t]) = given t' tr := by
      simp [given, List.filterMap_cons, Event.given?]
    rw [hgiven, List.count_append, List.count_singleton]
    by_cases ht : t = t'
    · subst ht
      rw [if_pos (by simp)]
      simp only [outstanding, List.length_drop] at hpos
      omega
    · rw [if_neg (by simpa using ht)]
      omega
  · intro t'
    rw [hout, hregs]
    by_cases ht : t = t'
    · subst ht
      rw [Function.update_self, if_pos rfl, List.length_tail, ← hlen,
        TagGenOO.toNat_sub_one (by omega)]
    · rw [Function.update_of_ne (Ne.symm ht), if_neg ht]
      exact h.counts t'
  · intro t'
    have hr := h.returns t'
    rw [hd, List.count_cons] at hr
    rw [hout, hret, hun]
    by_cases ht : t = t'
    · subst ht
      rw [if_pos (beq_self_eq_true t)] at hr
      rw [if_pos rfl, List.length_tail]
      omega
    · rw [if_neg (by simpa using ht)] at hr
      rw [if_neg ht]
      omega
  · intro t' x hx
    rw [hout] at hx
    rw [hmap, TagGenOO.returned_eq_some]
    by_cases ht : t = t'
    · subst ht
      rw [if_pos rfl] at hx
      refine ⟨h.mapped t x (List.mem_of_mem_tail hx), fun _ h1 => ?_⟩
      have hnil : (outstanding t tr).tail.length = 0 := by
        rw [List.length_tail, hone.mp h1]
      rw [List.length_eq_zero_iff.mp hnil] at hx
      cases hx
    · rw [if_neg ht] at hx
      exact ⟨h.mapped t' x hx, fun ht' => absurd ht'.symm ht⟩
  · intro t' x hx
    rw [hmap, TagGenOO.returned_eq_some] at hx
    obtain ⟨hm, h1⟩ := hx
    rw [hout]
    by_cases ht : t = t'
    · subst ht
      rw [if_pos rfl]
      -- another request is left, and the map says the same of all of them
      have hne : (outstanding t tr).tail ≠ [] := by
        intro hnil
        have hl : (outstanding t tr).tail.length = 0 := by rw [hnil]; rfl
        rw [List.length_tail] at hl
        exact h1 rfl (hone.mpr (by omega))
      obtain ⟨y, ys, hy⟩ := List.exists_cons_of_ne_nil hne
      have hymem : y ∈ (outstanding t tr).tail := by rw [hy]; exact List.mem_cons_self
      have heq := h.mapped t y (List.mem_of_mem_tail hymem)
      rw [hm] at heq
      rw [Option.some.inj heq]
      exact hymem
    · rw [if_neg ht]
      exact h.valid t' x hm

namespace Renames

/-- A step after which no request has a tag that it did not have before. -/
lemma oneToOne_of_assigned (h : Renames tr p) {g : TagGenOO numClients numTags}
    (hg : ∀ t x, Assigned g t x → Assigned p.gen t x) :
    ∀ t t' x x', Assigned g t x → Assigned g t' x' → (t = t' ↔ x = x') := by
  intro t t' x x' ha ha'
  exact h.oneToOne t t' x x' (hg t x ha) (hg t' x' ha')

/-- A request is queued with the result of its lookup.

**Proof sketch.** If the lookup finds a tag, the request is assigned that tag in the map already. If
not, the request is alone. -/
lemma tagRequest (h : Renames tr p) {client : Fin numClients} {origTag : BitVec 6}
    (hc : careful p (.tagRequest client origTag))
    {q : Fifo sglPipelineDepth (Option (Fin numTags) × Fin numClients × BitVec 6)}
    (hq : q.items = p.gen.requestFifo0.items ++
      [(findElem (some (client, origTag)) p.gen.clientMap, client, origTag)]) :
    Renames (tr ++ [Event.tagRequest (client, origTag)])
      { p with gen := { p.gen with requestFifo0 := q } } := by
  refine ⟨h.toTracks.frame (fun _ => rfl) (by simp) rfl rfl (fun _ => rfl), ?_, ?_⟩
  · refine h.oneToOne_of_assigned ?_
    rintro t x (hm | hm | hm)
    · exact .inl hm
    · rw [hq, List.mem_append, List.mem_singleton] at hm
      rcases hm with hm | hm
      · exact .inr (.inl hm)
      · obtain ⟨ht, rfl⟩ := Prod.mk.inj hm
        exact .inl (eq_of_findElem ht.symm)
    · exact .inr (.inr hm)
  · intro x hx
    simp only [careful, Bool.or_eq_true, Bool.and_eq_true, List.isEmpty_iff] at hc
    rw [hq, List.mem_append, List.mem_singleton] at hx
    rcases hc with ⟨h0, h1⟩ | ⟨hfound, hall⟩
    · rw [h0] at hx
      rcases hx with hx | hx
      · cases hx
      · obtain ⟨hnone, rfl⟩ := Prod.mk.inj hx
        refine ⟨by rw [hq, h0, ← hnone]; rfl, h1, ?_⟩
        exact findElem_eq_none.mp hnone.symm
    · exfalso
      rcases hx with hx | hx
      · simpa using List.all_eq_true.mp hall _ hx
      · rw [← (Prod.mk.inj hx).1] at hfound
        cases hfound

/-- A request is assigned its tag.

**Proof sketch.** A tag that was found stays as it is. A free tag is not in the map, since its count is
zero, and no other request is between the steps. -/
lemma tagRequestRule (h : Renames tr p) {found : Option (Fin numTags)}
    {x : Fin numClients × BitVec 6} {t : Fin numTags}
    {q₀ : Fifo sglPipelineDepth (Option (Fin numTags) × Fin numClients × BitVec 6)}
    {q₁ : Fifo sglPipelineDepth (Fin numTags × Fin numClients × BitVec 6)}
    (hd : p.gen.requestFifo0.items = (found, x) :: q₀.items) (ht : p.gen.chooseTag found = some t)
    (he : q₁.items = p.gen.requestFifo1.items ++ [(t, x)]) :
    Renames tr
      { p with
        gen :=
          { p.gen with
            requestFifo0 := q₀
            requestFifo1 := q₁ } } := by
  refine ⟨⟨h.returned_le, h.counts, h.returns, h.mapped, h.valid⟩, ?_, ?_⟩
  · cases found with
    | some t₀ =>
      obtain rfl : t₀ = t := by
        simp only [TagGenOO.chooseTag] at ht
        split at ht
        · exact Option.some.inj ht
        · cases ht
      refine h.oneToOne_of_assigned ?_
      rintro t' x' (hm | hm | hm)
      · exact .inl hm
      · exact .inr (.inl (by rw [hd]; exact List.mem_cons_of_mem _ hm))
      · rw [he, List.mem_append, List.mem_singleton] at hm
        rcases hm with hm | hm
        · exact .inr (.inr hm)
        · obtain ⟨rfl, rfl⟩ := Prod.mk.inj hm
          exact .inr (.inl (by rw [hd]; exact List.mem_cons_self))
    | none =>
      obtain ⟨hone, hnil, hnew⟩ := h.fresh x (by rw [hd]; exact List.mem_cons_self)
      have hq₀ : q₀.items = [] := by
        rw [hd] at hone
        exact (List.cons.inj hone).2
      have hfree : p.gen.clientMap t = none := by
        by_contra hne
        obtain ⟨y, hy⟩ := Option.ne_none_iff_exists'.mp hne
        have hzero : p.gen.tagRegs t = 0 := eq_of_findElem ht
        have hlen := h.counts t
        rw [hzero] at hlen
        have hmem := h.valid t y hy
        rw [List.length_eq_zero_iff.mp hlen.symm] at hmem
        cases hmem
      -- what is assigned: the map, and the new tag
      have hassigned : ∀ t' x', Assigned
          { p.gen with
            requestFifo0 := q₀
            requestFifo1 := q₁ } t' x' → p.gen.clientMap t' = some x' ∨ (t' = t ∧ x' = x) := by
        rintro t' x' (hm | hm | hm)
        · exact .inl hm
        · rw [hq₀] at hm
          cases hm
        · rw [he, hnil, List.nil_append, List.mem_singleton] at hm
          exact .inr (Prod.mk.inj hm)
      intro t' t'' x' x'' ha ha'
      rcases hassigned t' x' ha with hm | ⟨rfl, rfl⟩ <;>
        rcases hassigned t'' x'' ha' with hm' | ⟨rfl, rfl⟩
      · exact h.oneToOne t' t'' x' x'' (.inl hm) (.inl hm')
      · constructor
        · rintro rfl
          rw [hfree] at hm
          cases hm
        · rintro rfl
          exact absurd hm (hnew t')
      · constructor
        · rintro rfl
          rw [hfree] at hm'
          cases hm'
        · rintro rfl
          exact absurd hm' (hnew t'')
      · exact ⟨fun _ => rfl, fun _ => rfl⟩
  · -- what waits for a new tag waited alone, at the head
    intro y hy
    obtain ⟨hone, -, -⟩ := h.fresh y (by rw [hd]; exact List.mem_cons_of_mem _ hy)
    rw [hd] at hone
    have hq₀ : q₀.items = [] := (List.cons.inj hone).2
    have hy' : (none, y) ∈ q₀.items := hy
    rw [hq₀] at hy'
    cases hy'

/-- A tag is given to the oldest request.

**Proof sketch.** The request had the tag between the steps, so the map says the same of it or nothing;
the count does not come round. -/
lemma tagResponse (h : Renames tr p) (hc : careful p .tagResponse) {t : Fin numTags}
    {x : Fin numClients × BitVec 6}
    {q : Fifo sglPipelineDepth (Fin numTags × Fin numClients × BitVec 6)}
    (hd : p.gen.requestFifo1.items = (t, x) :: q.items) :
    Renames (tr ++ [Event.tagResponse t x])
      ⟨{ p.gen with
          requestFifo1 := q
          clientMap := Function.update p.gen.clientMap t (some x)
          tagRegs := Function.update p.gen.tagRegs t (p.gen.tagRegs t + 1) },
        Function.update p.unreturned t (p.unreturned t + 1)⟩ := by
  have hhead : Assigned p.gen t x := .inr (.inr (by rw [hd]; exact List.mem_cons_self))
  have hmax : p.gen.tagRegs t ≠ BitVec.allOnes 5 := by
    simpa only [careful, hd, List.head?_cons, Option.all_some, bne_iff_ne] using hc
  -- whatever the map says of the tag, it is this request
  have hsame : ∀ y, p.gen.clientMap t = some y → y = x := by
    intro y hy
    exact (h.oneToOne t t y x (.inl hy) hhead).mp rfl
  refine ⟨h.toTracks.tagResponse hmax hsame rfl rfl rfl rfl, ?_, ?_⟩
  · refine h.oneToOne_of_assigned ?_
    rintro t' x' (hm | hm | hm)
    · have hm' : Function.update p.gen.clientMap t (some x) t' = some x' := hm
      by_cases ht : t' = t
      · subst ht
        rw [Function.update_self] at hm'
        obtain rfl := Option.some.inj hm'
        exact hhead
      · rw [Function.update_of_ne ht] at hm'
        exact .inl hm'
    · exact .inr (.inl hm)
    · exact .inr (.inr (by rw [hd]; exact List.mem_cons_of_mem _ hm))
  · intro y hy
    have hnil := (h.fresh y hy).2.1
    rw [hd] at hnil
    cases hnil

/-- `return_tag` queues one of the returns still to come. -/
lemma returnTag (h : Renames tr p) {t : Fin numTags} (hu : p.unreturned t ≠ 0)
    {q : Fifo 2 (Fin numTags)} (hq : q.items = p.gen.returnFifo.items ++ [t]) :
    Renames (tr ++ [Event.returnTag t])
      ⟨{ p.gen with returnFifo := q }, Function.update p.unreturned t (p.unreturned t - 1)⟩ := by
  refine ⟨h.toTracks.frame (fun _ => rfl) (by simp) rfl rfl ?_, h.oneToOne, h.fresh⟩
  intro t'
  show q.items.count t' + Function.update p.unreturned t (p.unreturned t - 1) t' = _
  rw [hq, List.count_append, List.count_singleton]
  by_cases ht : t = t'
  · subst ht
    rw [Function.update_self, if_pos (beq_self_eq_true t)]
    omega
  · rw [Function.update_of_ne (Ne.symm ht), if_neg (by simpa using ht)]
    rfl

/-- A return is processed: the map may lose an entry. -/
lemma returnTagRule (h : Renames tr p) {t : Fin numTags} {q : Fifo 2 (Fin numTags)}
    (hd : p.gen.returnFifo.items = t :: q.items) :
    Renames (tr ++ [Event.returned t])
      { p with
        gen :=
          { p.gen with
            returnFifo := q
            tagRegs := Function.update p.gen.tagRegs t (p.gen.tagRegs t - 1)
            clientMap :=
              if p.gen.tagRegs t = 1 then Function.update p.gen.clientMap t none
              else p.gen.clientMap } } := by
  refine ⟨h.toTracks.returned hd rfl rfl rfl rfl, ?_, ?_⟩
  · refine h.oneToOne_of_assigned ?_
    rintro t' x (hm | hm | hm)
    · exact .inl (TagGenOO.returned_eq_some.mp hm).1
    · exact .inr (.inl hm)
    · exact .inr (.inr hm)
  · intro x hx
    obtain ⟨h₀, h₁, hm⟩ := h.fresh x hx
    exact ⟨h₀, h₁, fun t' hx' => hm t' (TagGenOO.returned_eq_some.mp hx').1⟩

/-- A careful step keeps the invariant. -/
theorem step (h : Renames tr p) {a : Action numClients numTags}
    {es : List (Event numClients numTags)}
    (hs : ((tagUse numClients numTags).guard fun p a => careful p a).step p a = some (p', es)) :
    Renames (tr ++ es) p' := by
  rw [RuleSystem.guard_step] at hs
  obtain ⟨hc, hs⟩ := hs
  cases a with
  | tagRequest client origTag =>
    simp only [tagUse, TagUse.step, bind, pure, Option.bind_eq_some_iff, Option.some.injEq,
      Prod.mk.injEq] at hs
    obtain ⟨gen, hg, rfl, rfl⟩ := hs
    obtain ⟨q, hq, rfl⟩ := TagGenOO.tagRequest_eq_some hg
    exact h.tagRequest hc hq
  | tagResponse =>
    simp only [tagUse, TagUse.step, bind, pure, Option.bind_eq_some_iff, Prod.exists,
      Fifo.first_eq_some, Option.some.injEq, Prod.mk.injEq] at hs
    obtain ⟨t, client, origTag, ⟨rest, hf⟩, t', gen, hg, rfl, rfl⟩ := hs
    obtain ⟨x, q, hq, rfl⟩ := TagGenOO.tagResponse_eq_some hg
    obtain ⟨hx, -⟩ := List.cons.inj (hf.symm.trans hq)
    obtain ⟨rfl, rfl⟩ := Prod.mk.inj hx
    exact h.tagResponse hc hq
  | returnTag t =>
    simp only [tagUse, TagUse.step] at hs
    split at hs
    · cases hs
    · rename_i hu
      simp only [bind, pure, Option.bind_eq_some_iff, Option.some.injEq, Prod.mk.injEq] at hs
      obtain ⟨gen, hg, rfl, rfl⟩ := hs
      obtain ⟨q, hq, rfl⟩ := TagGenOO.returnTag_eq_some hg
      exact h.returnTag hu hq
  | rule k =>
    cases k with
    | returnTagRule =>
      simp only [tagUse, TagUse.step, mkTagGenOO, bind, pure, Option.bind_eq_some_iff, Prod.exists,
        Option.some.injEq, Prod.mk.injEq] at hs
      obtain ⟨gen, es', ⟨t, gen', hg, rfl, rfl⟩, rfl, rfl⟩ := hs
      obtain ⟨q, hq, rfl⟩ := TagGenOO.returnTagRule_eq_some hg
      exact h.returnTagRule hq
    | tagRequestRule =>
      simp only [tagUse, TagUse.step, mkTagGenOO, bind, pure, Option.bind_eq_some_iff, Prod.exists,
        Option.some.injEq, Prod.mk.injEq] at hs
      obtain ⟨gen, es', ⟨gen', hg, rfl, rfl⟩, rfl, rfl⟩ := hs
      obtain ⟨found, x, t, q₀, q₁, hd, ht, he, rfl⟩ := TagGenOO.tagRequestRule_eq_some hg
      rw [List.map_nil, List.append_nil]
      exact h.tagRequestRule hd ht he

end Renames

end Steps

end TagUse

/-- **Renaming is one-to-one along careful runs.** In every run of the generator in which each request
is made while no other is between its steps, or finds its tag in the map while none waits for a new
one, and in which no count passes its largest value: two outstanding requests have the same rename tag
if and only if they have the same client and original tag. -/
theorem oneToOne_of_careful (numClients numTags : ℕ) {tr : List (TagUse.Event numClients numTags)}
    {p : TagUse numClients numTags}
    (h : ((tagUse numClients numTags).guard fun p a => TagUse.careful p a).Reaches
      (.reset numClients numTags) tr p) : TagUse.OneToOne tr := by
  have hinv : TagUse.Renames tr p :=
    h.invariant TagUse.renames_reset fun ih hs => ih.step hs
  intro t t' x x' hx hx'
  exact hinv.oneToOne t t' x x' (.inl (hinv.mapped t x hx)) (.inl (hinv.mapped t' x' hx'))

/-- Two clients use the generator; the first makes a second request under the same tag, and the tag of
the other is returned. -/
def carefulRun :=
  ((tagUse 2 3).guard fun p a => TagUse.careful p a).run (.reset 2 3)
    [.tagRequest 0 5, .rule .tagRequestRule, .tagResponse, .tagRequest 1 5, .rule .tagRequestRule,
      .tagResponse, .tagRequest 0 5, .tagRequest 1 5, .rule .tagRequestRule, .tagResponse,
      .returnTag 1, .rule .returnTagRule]

/-- The requests of the first client are both under tag 0. -/
theorem oneToOne_of_careful_twoClients :
    TagUse.OneToOne carefulRun.2 ∧
      TagUse.outstanding 0 carefulRun.2 = [((0, 5) : Fin 2 × BitVec 6), (0, 5)] ∧
      TagUse.outstanding 1 carefulRun.2 = [] :=
  ⟨oneToOne_of_careful 2 3 (RuleSystem.reaches_run _ _), by decide +kernel, by decide +kernel⟩

/-- Two requests of one client under one tag, the second made before the first has its response. -/
def spreadRun :=
  (tagUse 1 2).run (.reset 1 2)
    [.tagRequest 0 5, .tagRequest 0 5, .rule .tagRequestRule, .tagResponse, .rule .tagRequestRule,
      .tagResponse]

/-- Two requests under different tags, the second made before the first has its response. -/
def mergedRun :=
  (tagUse 1 2).run (.reset 1 2)
    [.tagRequest 0 5, .tagRequest 0 6, .rule .tagRequestRule, .rule .tagRequestRule, .tagResponse,
      .tagResponse]

/-- **Requests in the pipeline.** A second request of the same client and tag gets another rename tag;
and a request of another tag may get the same one. -/
theorem not_oneToOne_pipelined :
    (tagUse 1 2).Reaches (.reset 1 2) spreadRun.2 spreadRun.1 ∧
      TagUse.outstanding 0 spreadRun.2 = [((0, 5) : Fin 1 × BitVec 6)] ∧
      TagUse.outstanding 1 spreadRun.2 = [((0, 5) : Fin 1 × BitVec 6)] ∧
      ¬ TagUse.OneToOne spreadRun.2 ∧
      (tagUse 1 2).Reaches (.reset 1 2) mergedRun.2 mergedRun.1 ∧
      TagUse.outstanding 0 mergedRun.2 = [((0, 5) : Fin 1 × BitVec 6), (0, 6)] ∧
      ¬ TagUse.OneToOne mergedRun.2 := by
  have hspread₀ : TagUse.outstanding 0 spreadRun.2 = [((0, 5) : Fin 1 × BitVec 6)] := by
    decide +kernel
  have hspread₁ : TagUse.outstanding 1 spreadRun.2 = [((0, 5) : Fin 1 × BitVec 6)] := by
    decide +kernel
  have hmerged : TagUse.outstanding 0 mergedRun.2 = [((0, 5) : Fin 1 × BitVec 6), (0, 6)] := by
    decide +kernel
  refine ⟨RuleSystem.reaches_run _ _, hspread₀, hspread₁, fun h => ?_, RuleSystem.reaches_run _ _,
    hmerged, fun h => ?_⟩
  · have heq := (h 0 1 (0, 5) (0, 5) (by rw [hspread₀]; simp) (by rw [hspread₁]; simp)).mpr rfl
    exact absurd heq (by decide)
  · have heq := (h 0 0 (0, 5) (0, 6) (by rw [hmerged]; simp) (by rw [hmerged]; simp)).mp rfl
    exact absurd heq (by decide)

end Xbsv
