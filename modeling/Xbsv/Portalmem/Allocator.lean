import Mathlib.Algebra.BigOperators.Group.List.Basic
import Mathlib.Algebra.Group.Action.Defs
import Mathlib.Algebra.Order.BigOperators.Group.List
import Mathlib.Data.BitVec
import Mathlib.Tactic.Ring
import Xbsv.Resources.Trace

set_option relaxedAutoImplicit false
set_option autoImplicit false

/-!
# The buffer allocator of `portalmem.c`

`portalmem_dmabuffer_create` gathers the pages of a buffer in blocks of 256, 16 and 1 pages. It asks for the largest
block that fits into what is missing and is not larger than the block before; where the request is refused it asks
for a smaller one. What `alloc_pages` answers is given request by request. `kmalloc` of a `struct page_info`
succeeds.

## Main definitions

* `Xbsv.Portalmem.allocLoop` — the loop that gathers the blocks.
* `Xbsv.Portalmem.fillTable` — the scatter list that is made of them.
* `Xbsv.Portalmem.Gathers` — the invariant of the loop.
* `Xbsv.Portalmem.Serves` — the answers with which the whole buffer is gathered.

## Main results

* `Xbsv.Portalmem.tryOrders_cases` — what one round can do.
* `Xbsv.Portalmem.exists_allocLoop` — the loop ends.
* `Xbsv.Portalmem.buffer_gathered` — the blocks and the scatter list when it has ended.
-/

namespace Xbsv.Portalmem

open Resources

/-! ## The source -/

/-- `PAGE_SIZE`. -/
def pageSize : ℕ := 4096

/-- `PAGE_SIZE << order`. -/
def blockSize (order : ℕ) : ℕ := pageSize * 2 ^ order

/-- `round_up(len, align)`, and `PAGE_ALIGN(len)` for the size of a page. -/
def roundUp (len : BitVec 64) (align : ℕ) : BitVec 64 :=
  BitVec.ofNat 64 ((len.toNat + (align - 1)) / align * align)

/-- `orders[]`. -/
def orders : List ℕ := [8, 4, 0]

/-- `struct page_info`: the page frame at which the block begins, and its order. The number of the request that was
met names the block and the record. -/
structure PageInfo where
  id : ℕ
  page : ℕ
  order : ℕ
  deriving DecidableEq

/-- An entry of a scatter list: the page frame at which it begins, and its length. -/
structure Sg where
  page : ℕ
  length : BitVec 32
  deriving DecidableEq

/-- The objects that the allocator obtains: the `pa_buffer`, the `sg_table`, the blocks of `2 ^ order` pages and their
records. -/
inductive Object
  | buffer
  | table
  | block (id order : ℕ)
  | info (id : ℕ)
  deriving DecidableEq

/-- The variables of the loop, the number of requests and what has been obtained. -/
structure State where
  sizeRemaining : BitVec 64
  maxOrder : ℕ
  infocount : BitVec 32
  info : Option PageInfo
  pages : List PageInfo
  requests : ℕ
  trace : List (Event Object)

/-- The inner loop: `alloc k` is the page frame that the request number `k` is met with. -/
def tryOrders (alloc : ℕ → Option ℕ) : List ℕ → State → State
  | [], s => s
  | order :: rest, s =>
    if BitVec.ofNat 64 (blockSize order) ≤ s.sizeRemaining ∧ order ≤ s.maxOrder then
      match alloc s.requests with
      | some page =>
        { sizeRemaining := s.sizeRemaining - BitVec.ofNat 64 (blockSize order)
          maxOrder := order
          infocount := s.infocount + 1
          info := some ⟨s.requests, page, order⟩
          pages := s.pages ++ [⟨s.requests, page, order⟩]
          requests := s.requests + 1
          trace := s.trace ++ [.obtain (.block s.requests order), .obtain (.info s.requests)] }
      | none =>
        tryOrders alloc rest
          { s with requests := s.requests + 1, trace := s.trace ++ [.refuse (.block s.requests order)] }
    else tryOrders alloc rest s

/-- The loop, with at most `fuel` tests. -/
def allocLoop (alloc : ℕ → Option ℕ) : ℕ → State → Option State
  | 0, _ => none
  | fuel + 1, s =>
    if (0#64).slt s.sizeRemaining then
      let s := tryOrders alloc orders { s with info := none }
      if s.info = none then some s else allocLoop alloc fuel s
    else some s

/-- The variables before the loop. -/
def initial (len : BitVec 64) (trace : List (Event Object)) : State where
  sizeRemaining := roundUp (roundUp len 4096) pageSize
  maxOrder := 8
  infocount := 0
  info := none
  pages := []
  requests := 0
  trace := trace

/-- The loop that fills the scatter list: `sg_set_page` for one record after the other. It has no value where the
list ends before the records do. -/
def fillTable : List PageInfo → List Sg → Option (List Sg)
  | [], sgl => some sgl
  | _ :: _, [] => none
  | info :: pages, _ :: sgl => (fillTable pages sgl).map (⟨info.page, BitVec.ofNat 32 (blockSize info.order)⟩ :: ·)

/-- The scatter list: `sg_alloc_table` makes `infocount` entries, which are then filled. -/
def State.table (s : State) : Option (List Sg) :=
  fillTable s.pages (List.replicate s.infocount.toNat ⟨0, 0⟩)

/-! ## One round -/

variable {alloc : ℕ → Option ℕ} {s s' : State}

lemma blockSize_pos (order : ℕ) : 0 < blockSize order := Nat.mul_pos (by decide) (Nat.two_pow_pos _)

/-- The orders that a round asks for, one after the other until a request is met. -/
def State.eligible (s : State) (os : List ℕ) : List ℕ :=
  os.filter fun order => BitVec.ofNat 64 (blockSize order) ≤ s.sizeRemaining ∧ order ≤ s.maxOrder

/-- The state after a request that has been refused. -/
def State.refuse (s : State) (order : ℕ) : State :=
  { s with requests := s.requests + 1, trace := s.trace ++ [.refuse (.block s.requests order)] }

/-- The state after a request that has been met. -/
def State.meet (s : State) (page order : ℕ) : State :=
  { sizeRemaining := s.sizeRemaining - BitVec.ofNat 64 (blockSize order)
    maxOrder := order
    infocount := s.infocount + 1
    info := some ⟨s.requests, page, order⟩
    pages := s.pages ++ [⟨s.requests, page, order⟩]
    requests := s.requests + 1
    trace := s.trace ++ [.obtain (.block s.requests order), .obtain (.info s.requests)] }

/-- Refused requests change nothing but their number and the trace. -/
lemma foldl_refuse (os : List ℕ) (s : State) :
    ∃ es, (∀ e ∈ es, ∃ o, e = .refuse o) ∧
      os.foldl State.refuse s = { s with requests := s.requests + os.length, trace := s.trace ++ es } := by
  induction os generalizing s with
  | nil => exact ⟨[], fun e he => absurd he List.not_mem_nil, by simp⟩
  | cons order os ih =>
    obtain ⟨es, hes, heq⟩ := ih (s.refuse order)
    refine ⟨.refuse (.block s.requests order) :: es, fun e he => ?_, ?_⟩
    · rcases List.mem_cons.mp he with rfl | hmem
      · exact ⟨_, rfl⟩
      · exact hes e hmem
    · rw [List.foldl_cons, heq]
      simp only [State.refuse, List.append_assoc, List.singleton_append, List.length_cons]
      rw [Nat.add_assoc, Nat.add_comm 1]

/-- **What a round can do**: all requests are refused, or the first one that is not is met. -/
theorem tryOrders_cases (alloc : ℕ → Option ℕ) (os : List ℕ) (s : State) :
    ((∀ k < (s.eligible os).length, alloc (s.requests + k) = none) ∧
      tryOrders alloc os s = (s.eligible os).foldl State.refuse s) ∨
    ∃ k order page, (s.eligible os)[k]? = some order ∧ (∀ j < k, alloc (s.requests + j) = none) ∧
      alloc (s.requests + k) = some page ∧
      tryOrders alloc os s = (((s.eligible os).take k).foldl State.refuse s).meet page order := by
  induction os generalizing s with
  | nil =>
    left
    refine ⟨fun k hk => ?_, rfl⟩
    cases hk
  | cons order rest ih =>
    by_cases hfit : BitVec.ofNat 64 (blockSize order) ≤ s.sizeRemaining ∧ order ≤ s.maxOrder
    · have heligible : s.eligible (order :: rest) = order :: s.eligible rest :=
        List.filter_cons_of_pos (by simpa using hfit)
      have hsame : (s.refuse order).eligible rest = s.eligible rest := rfl
      have hnext : ∀ k, (s.refuse order).requests + k = s.requests + (k + 1) := by
        intro k
        rw [State.refuse, Nat.add_assoc, Nat.add_comm 1 k]
      rw [heligible, tryOrders, if_pos hfit]
      cases hanswer : alloc s.requests with
      | some page =>
        right
        refine ⟨0, order, page, rfl, fun j hj => ?_, hanswer, rfl⟩
        cases hj
      | none =>
        rcases ih (s.refuse order) with ⟨hall, heq⟩ | ⟨k, order', page, hk, hbefore, hmet, heq⟩
        · left
          refine ⟨fun k hk => ?_, heq⟩
          cases k with
          | zero => exact hanswer
          | succ k =>
            rw [← hnext]
            exact hall k (by rw [hsame]; simpa using hk)
        · right
          refine ⟨k + 1, order', page, hk, fun j hj => ?_, by rwa [← hnext], heq⟩
          cases j with
          | zero => exact hanswer
          | succ j =>
            rw [← hnext]
            exact hbefore j (by omega)
    · have heligible : s.eligible (order :: rest) = s.eligible rest :=
        List.filter_cons_of_neg (by simpa using hfit)
      rw [heligible, tryOrders, if_neg hfit]
      exact ih s

/-! ## Rules -/

/-- The sizes of the blocks. -/
lemma blockSize_of_mem {order : ℕ} (h : order ∈ orders) : pageSize ∣ blockSize order ∧ blockSize order < 2 ^ 32 := by
  refine ⟨Nat.dvd_mul_right .., ?_⟩
  simp only [orders, List.mem_cons, List.not_mem_nil, or_false] at h
  rcases h with rfl | rfl | rfl <;> decide

lemma ofNat_blockSize {order : ℕ} (h : order ∈ orders) :
    (BitVec.ofNat 64 (blockSize order)).toNat = blockSize order := by
  have hlt := (blockSize_of_mem h).2
  rw [BitVec.toNat_ofNat, Nat.mod_eq_of_lt (by omega)]

/-- The orders that fit into `size` bytes and are not above `max`. -/
def fitting (size max : ℕ) : List ℕ := orders.filter fun order => blockSize order ≤ size ∧ order ≤ max

lemma eligible_orders (s : State) : s.eligible orders = fitting s.sizeRemaining.toNat s.maxOrder := by
  apply List.filter_congr
  intro order horder
  apply decide_eq_decide.mpr
  rw [BitVec.le_def, ofNat_blockSize horder]

lemma mem_fitting {size max order : ℕ} :
    order ∈ fitting size max ↔ order ∈ orders ∧ blockSize order ≤ size ∧ order ≤ max := by
  simp [fitting, List.mem_filter]

section Rules

variable {I : State → Prop} (hrefuse : ∀ s order, I s → I (s.refuse order))
  (hmeet : ∀ s page order, order ∈ fitting s.sizeRemaining.toNat s.maxOrder → I s → I (s.meet page order))

include hrefuse hmeet

/-- What every request keeps, a round keeps. -/
theorem tryOrders_inv {os : List ℕ} (hos : ∀ order ∈ os, order ∈ orders) (hs : I s) : I (tryOrders alloc os s) := by
  induction os generalizing s with
  | nil => exact hs
  | cons order rest ih =>
    have hrest : ∀ o ∈ rest, o ∈ orders := fun o ho => hos o (List.mem_cons_of_mem _ ho)
    rw [tryOrders]
    split
    case isTrue hfit =>
      have hmem : order ∈ orders := hos order List.mem_cons_self
      rw [BitVec.le_def, ofNat_blockSize hmem] at hfit
      cases alloc s.requests with
      | some page => exact hmeet s page order (mem_fitting.mpr ⟨hmem, hfit⟩) hs
      | none => exact ih hrest (hrefuse s order hs)
    case isFalse => exact ih hrest hs

/-- What every request keeps, the loop keeps. -/
theorem allocLoop_inv (hclear : ∀ s, I s → I { s with info := none }) {fuel : ℕ} (hs : I s)
    (h : allocLoop alloc fuel s = some s') : I s' := by
  induction fuel generalizing s with
  | zero => cases h
  | succ fuel ih =>
    have hround : I (tryOrders alloc orders { s with info := none }) :=
      tryOrders_inv hrefuse hmeet (fun _ ho => ho) (hclear s hs)
    rw [allocLoop] at h
    split at h
    · dsimp only at h
      split at h
      · cases h
        exact hround
      · exact ih hround h
    · cases h
      exact hs

end Rules

/-! ## The invariant -/

/-- The loop has gathered a part of the `total` bytes of the buffer: blocks in non-increasing order, none smaller than
the largest one that it will still ask for. -/
structure Gathers (total : ℕ) (s : State) : Prop where
  lt : total < 2 ^ 63
  sum : s.sizeRemaining.toNat + (s.pages.map fun p => blockSize p.order).sum = total
  dvd : pageSize ∣ s.sizeRemaining.toNat
  maxOrder_mem : s.maxOrder ∈ orders
  order_mem : ∀ p ∈ s.pages, p.order ∈ orders
  maxOrder_le : ∀ p ∈ s.pages, s.maxOrder ≤ p.order
  sorted : s.pages.Pairwise fun p q => q.order ≤ p.order
  infocount : s.infocount = BitVec.ofNat 32 s.pages.length

variable {total : ℕ}

/-- The invariant is about the size and the blocks. -/
lemma Gathers.frame (hs : Gathers total s) (hsize : s'.sizeRemaining = s.sizeRemaining)
    (hmax : s'.maxOrder = s.maxOrder) (hcount : s'.infocount = s.infocount) (hpages : s'.pages = s.pages) :
    Gathers total s' where
  lt := hs.lt
  sum := by rw [hsize, hpages, hs.sum]
  dvd := by rw [hsize]; exact hs.dvd
  maxOrder_mem := by rw [hmax]; exact hs.maxOrder_mem
  order_mem := by rw [hpages]; exact hs.order_mem
  maxOrder_le := by rw [hmax, hpages]; exact hs.maxOrder_le
  sorted := by rw [hpages]; exact hs.sorted
  infocount := by rw [hcount, hpages, hs.infocount]

/-- What is missing once a block has been found. -/
lemma toNat_meet (page : ℕ) {order : ℕ} (hmem : order ∈ orders) (hfits : blockSize order ≤ s.sizeRemaining.toNat) :
    (s.meet page order).sizeRemaining.toNat = s.sizeRemaining.toNat - blockSize order := by
  have hle : BitVec.ofNat 64 (blockSize order) ≤ s.sizeRemaining := by
    rw [BitVec.le_def, ofNat_blockSize hmem]
    exact hfits
  show (s.sizeRemaining - BitVec.ofNat 64 (blockSize order)).toNat = _
  rw [BitVec.toNat_sub_of_le hle, ofNat_blockSize hmem]

/-- A refused request keeps the invariant. -/
lemma gathers_refuse (s : State) (order : ℕ) (hs : Gathers total s) : Gathers total (s.refuse order) :=
  hs.frame rfl rfl rfl rfl

/-- A block that is found keeps the invariant. -/
lemma gathers_meet (s : State) (page order : ℕ) (h : order ∈ fitting s.sizeRemaining.toNat s.maxOrder)
    (hs : Gathers total s) : Gathers total (s.meet page order) := by
  obtain ⟨hmem, hsize, hmax⟩ := mem_fitting.mp h
  have hsub := toNat_meet page hmem hsize
  refine ⟨hs.lt, ?_, ?_, hmem, ?_, ?_, ?_, ?_⟩
  · rw [hsub, State.meet, List.map_append, List.sum_append, ← hs.sum]
    simp only [List.map_cons, List.map_nil, List.sum_cons, List.sum_nil]
    omega
  · rw [hsub]
    exact Nat.dvd_sub hs.dvd (blockSize_of_mem hmem).1
  · intro p hp
    rcases List.mem_append.mp hp with hold | hnew
    · exact hs.order_mem p hold
    · rw [List.mem_singleton.mp hnew]
      exact hmem
  · intro p hp
    rcases List.mem_append.mp hp with hold | hnew
    · exact hmax.trans (hs.maxOrder_le p hold)
    · rw [List.mem_singleton.mp hnew]
      exact Nat.le_refl order
  · refine List.pairwise_append.mpr ⟨hs.sorted, List.pairwise_singleton _ _, fun p hp q hq => ?_⟩
    rw [List.mem_singleton.mp hq]
    exact hmax.trans (hs.maxOrder_le p hp)
  · show s.infocount + 1 = BitVec.ofNat 32 (s.pages ++ [_]).length
    rw [hs.infocount, List.length_append, List.length_singleton, BitVec.ofNat_add]
    rfl

/-- The loop keeps the invariant. -/
lemma Gathers.of_loop {fuel : ℕ} (hs : Gathers total s) (h : allocLoop alloc fuel s = some s') : Gathers total s' :=
  allocLoop_inv gathers_refuse gathers_meet (fun _ h => h.frame rfl rfl rfl rfl) hs h

/-- As long as something is missing, a single page fits. -/
lemma Gathers.fitting_eq (hs : Gathers total s) (hpos : 0 < s.sizeRemaining.toNat) :
    ∃ os, fitting s.sizeRemaining.toNat s.maxOrder = os ++ [0] := by
  have hpage : blockSize 0 ≤ s.sizeRemaining.toNat := Nat.le_of_dvd hpos hs.dvd
  have hzero : [0].filter (fun order => decide (blockSize order ≤ s.sizeRemaining.toNat ∧ order ≤ s.maxOrder)) = [0] :=
    List.filter_cons_of_pos (by simpa using hpage)
  have horders : orders = [8, 4] ++ [0] := rfl
  rw [fitting, horders, List.filter_append, hzero]
  exact ⟨_, rfl⟩

/-- The test of the loop. -/
lemma Gathers.slt_iff (hs : Gathers total s) : (0#64).slt s.sizeRemaining = true ↔ 0 < s.sizeRemaining.toNat := by
  have hle : s.sizeRemaining.toNat ≤ total := by
    rw [← hs.sum]
    exact Nat.le_add_right ..
  have hlt := hs.lt
  rw [BitVec.slt, decide_eq_true_eq, BitVec.toInt_eq_toNat_of_lt (x := s.sizeRemaining) (by omega)]
  simp

/-! ## The loop -/

/-- The answers from the request `k` on with which `size` bytes are gathered in blocks not above the order `max`: in
every round the first request that is not refused is for one of the orders that fit. -/
inductive Serves (alloc : ℕ → Option ℕ) : ℕ → ℕ → ℕ → Prop
  /-- Nothing is missing. -/
  | done {k max : ℕ} : Serves alloc k 0 max
  /-- One more block. -/
  | block {k size max j order : ℕ} : (fitting size max)[j]? = some order → (∀ i < j, alloc (k + i) = none) →
    alloc (k + j) ≠ none → Serves alloc (k + j + 1) (size - blockSize order) order → Serves alloc k size max

/-- All requests of a round are refused. -/
lemma not_serves_of_refused {k size max : ℕ} (hpos : 0 < size)
    (hall : ∀ i < (fitting size max).length, alloc (k + i) = none) : ¬Serves alloc k size max := by
  intro h
  cases h with
  | done => omega
  | @block _ _ _ j order hfit _ hmet _ =>
    obtain ⟨hj, -⟩ := List.getElem?_eq_some_iff.mp hfit
    exact hmet (hall j hj)

/-- The first request that is not refused decides. -/
lemma serves_iff_of_met {k size max j order : ℕ} (hpos : 0 < size) (hfit : (fitting size max)[j]? = some order)
    (hbefore : ∀ i < j, alloc (k + i) = none) (hmet : alloc (k + j) ≠ none) :
    Serves alloc k size max ↔ Serves alloc (k + j + 1) (size - blockSize order) order := by
  constructor
  · intro h
    cases h with
    | done => omega
    | @block _ _ _ j' order' hfit' hbefore' hmet' hrest =>
      have hle : j ≤ j' := by
        by_contra hlt
        exact hmet' (hbefore j' (by omega))
      have hge : j' ≤ j := by
        by_contra hlt
        exact hmet (hbefore' j (by omega))
      obtain rfl : j' = j := by omega
      obtain rfl : order' = order := Option.some.inj (hfit'.symm.trans hfit)
      exact hrest
  · exact Serves.block hfit hbefore hmet

/-- A request for a single page has been refused while something was missing. -/
def OutOfPages (alloc : ℕ → Option ℕ) (s : State) : Prop :=
  0 < s.sizeRemaining.toNat ∧ ∃ k pre, alloc k = none ∧ s.requests = k + 1 ∧
    s.trace = pre ++ [.refuse (.block k 0)]

/-- How the loop ends that has been entered in `s`. -/
structure Ends (alloc : ℕ → Option ℕ) (s s' : State) : Prop where
  info : s'.info ≠ none ↔ Serves alloc s.requests s.sizeRemaining.toNat s.maxOrder
  size : s'.info ≠ none → s'.sizeRemaining.toNat = 0
  out : s'.info = none → OutOfPages alloc s'

/-- A round in which all requests are refused is the last one. -/
lemma Gathers.ends_of_refused (hs : Gathers total s) (hpos : 0 < s.sizeRemaining.toNat)
    (hall : ∀ k < (fitting s.sizeRemaining.toNat s.maxOrder).length, alloc (s.requests + k) = none) :
    Ends alloc s ((fitting s.sizeRemaining.toNat s.maxOrder).foldl State.refuse { s with info := none }) := by
  obtain ⟨os, hos⟩ := hs.fitting_eq hpos
  obtain ⟨es, -, hfold⟩ := foldl_refuse os { s with info := none }
  have hlast : alloc (s.requests + os.length) = none := by
    apply hall
    rw [hos, List.length_append, List.length_singleton]
    omega
  rw [hos, List.foldl_append, hfold]
  refine ⟨⟨fun h => absurd rfl h, fun h => ?_⟩, fun h => absurd rfl h, fun _ => ⟨hpos, _, _, hlast, rfl, rfl⟩⟩
  exact absurd h (not_serves_of_refused hpos hall)

/-- What one round does: either it is the last one, or less is missing afterwards. -/
lemma Gathers.round (alloc : ℕ → Option ℕ) (hs : Gathers total s) (hpos : 0 < s.sizeRemaining.toNat) :
    let s₁ := tryOrders alloc orders { s with info := none }
    s₁.info = none ∧ Ends alloc s s₁ ∨
      s₁.info ≠ none ∧ s₁.sizeRemaining.toNat + pageSize ≤ s.sizeRemaining.toNat ∧
        (Serves alloc s.requests s.sizeRemaining.toNat s.maxOrder ↔
          Serves alloc s₁.requests s₁.sizeRemaining.toNat s₁.maxOrder) := by
  intro s₁
  have heligible : ({ s with info := none } : State).eligible orders = fitting s.sizeRemaining.toNat s.maxOrder :=
    eligible_orders _
  have hround := tryOrders_cases alloc orders { s with info := none }
  rw [heligible] at hround
  rcases hround with ⟨hall, heq⟩ | ⟨k, order, page, hk, hbefore, hmet, heq⟩
  · left
    have hends := hs.ends_of_refused hpos hall
    obtain ⟨es, -, hfold⟩ := foldl_refuse (fitting s.sizeRemaining.toNat s.maxOrder) { s with info := none }
    rw [← heq] at hends hfold
    exact ⟨by rw [show s₁.info = _ from congrArg State.info hfold], hends⟩
  · right
    obtain ⟨es, -, hfold⟩ :=
      foldl_refuse ((fitting s.sizeRemaining.toNat s.maxOrder).take k) { s with info := none }
    obtain ⟨hklt, -⟩ := List.getElem?_eq_some_iff.mp hk
    rw [List.length_take_of_le (by omega)] at hfold
    rw [hfold] at heq
    obtain ⟨hmem, hfits, -⟩ := mem_fitting.mp (List.mem_of_getElem? hk)
    have hpage : pageSize ≤ blockSize order := Nat.le_of_dvd (blockSize_pos order) (blockSize_of_mem hmem).1
    have hsize : s₁.sizeRemaining.toNat = s.sizeRemaining.toNat - blockSize order := by
      rw [show s₁ = _ from heq]
      exact toNat_meet _ hmem hfits
    have hserves := serves_iff_of_met hpos hk hbefore (by rw [hmet]; exact Option.some_ne_none page)
    rw [hsize]
    refine ⟨?_, by omega, ?_⟩
    · rw [show s₁ = _ from heq]
      exact Option.some_ne_none _
    · rw [hserves, show s₁ = _ from heq]
      rfl

/-- **The loop ends**: with the whole buffer, or after a refused request for a single page. -/
theorem exists_allocLoop (alloc : ℕ → Option ℕ) (hs : Gathers total s) :
    ∃ s', (∀ fuel, s.sizeRemaining.toNat / pageSize < fuel → allocLoop alloc fuel s = some s') ∧
      if s.sizeRemaining.toNat = 0 then s' = s else Ends alloc s s' := by
  -- Every block takes at least a page from what is missing.
  induction hsize : s.sizeRemaining.toNat using Nat.strong_induction_on generalizing s with
  | _ size ih =>
    by_cases hzero : size = 0
    · refine ⟨s, fun fuel hfuel => ?_, by rw [if_pos hzero]⟩
      cases fuel with
      | zero => exact absurd hfuel (Nat.not_lt_zero _)
      | succ fuel => rw [allocLoop, if_neg (by rw [hs.slt_iff]; omega)]
    · have hpos : 0 < s.sizeRemaining.toNat := by omega
      have hstep : ∀ fuel, allocLoop alloc (fuel + 1) s =
          if (tryOrders alloc orders { s with info := none }).info = none then
            some (tryOrders alloc orders { s with info := none })
          else allocLoop alloc fuel (tryOrders alloc orders { s with info := none }) := by
        intro fuel
        rw [allocLoop, if_pos (hs.slt_iff.mpr hpos)]
      rcases hs.round alloc hpos with ⟨hnone, hends⟩ | ⟨hsome, hless, hserves⟩
      · refine ⟨_, fun fuel hfuel => ?_, by rw [if_neg hzero]; exact hends⟩
        cases fuel with
        | zero => exact absurd hfuel (Nat.not_lt_zero _)
        | succ fuel => rw [hstep, if_pos hnone]
      · have hnext : Gathers total (tryOrders alloc orders { s with info := none }) :=
          tryOrders_inv gathers_refuse gathers_meet (fun _ h => h) (hs.frame rfl rfl rfl rfl)
        have hpage : 0 < pageSize := by decide
        obtain ⟨s', hloop, hend⟩ := ih _ (by omega) hnext rfl
        refine ⟨s', fun fuel hfuel => ?_, ?_⟩
        · cases fuel with
          | zero => exact absurd hfuel (Nat.not_lt_zero _)
          | succ fuel =>
            rw [hstep, if_neg hsome]
            apply hloop
            have hdiv := Nat.div_le_div_right (c := pageSize) hless
            rw [Nat.add_div_right _ hpage] at hdiv
            rw [← hsize] at hfuel
            omega
        · rw [if_neg hzero]
          split at hend
          case isTrue hdone =>
            subst hend
            rw [hdone] at hserves
            exact ⟨⟨fun _ => hserves.mpr .done, fun _ => hsome⟩, fun _ => hdone, fun h => absurd h hsome⟩
          case isFalse =>
            exact ⟨hend.info.trans hserves.symm, hend.size, hend.out⟩

/-! ## The buffer -/

variable {len : BitVec 64} {trace : List (Event Object)}

/-- The length of the buffer, rounded up to a page. -/
def rounding (len : BitVec 64) : ℕ := (len.toNat + (pageSize - 1)) / pageSize * pageSize

lemma rounding_eq_zero_iff : rounding len = 0 ↔ len = 0 := by
  rw [← BitVec.toNat_inj, rounding, pageSize]
  constructor
  · intro h
    show len.toNat = 0
    omega
  · intro h
    rw [h]
    decide

/-- What is missing before the loop. -/
lemma toNat_sizeRemaining_initial (h : rounding len < 2 ^ 64) :
    (initial len trace).sizeRemaining.toNat = rounding len := by
  have hround : (roundUp len pageSize).toNat = rounding len := by
    rw [roundUp, BitVec.toNat_ofNat]
    exact Nat.mod_eq_of_lt h
  show (roundUp (roundUp len pageSize) pageSize).toNat = _
  rw [roundUp, hround, BitVec.toNat_ofNat]
  rw [rounding, pageSize] at h ⊢
  omega

/-- The invariant holds before the loop. -/
lemma gathers_initial (trace : List (Event Object)) (h : rounding len < 2 ^ 63) :
    Gathers (rounding len) (initial len trace) where
  lt := h
  sum := by rw [toNat_sizeRemaining_initial (by omega), initial, List.map_nil, List.sum_nil, Nat.add_zero]
  dvd := by
    rw [toNat_sizeRemaining_initial (by omega)]
    exact Nat.dvd_mul_left ..
  maxOrder_mem := List.mem_cons_self
  order_mem _ hp := absurd hp List.not_mem_nil
  maxOrder_le _ hp := absurd hp List.not_mem_nil
  sorted := List.Pairwise.nil
  infocount := rfl

/-- The entry of the scatter list that a block becomes. -/
def PageInfo.sg (info : PageInfo) : Sg := ⟨info.page, BitVec.ofNat 32 (blockSize info.order)⟩

lemma fillTable_eq {pages : List PageInfo} {sgl : List Sg} (h : sgl.length = pages.length) :
    fillTable pages sgl = some (pages.map PageInfo.sg) := by
  induction pages generalizing sgl with
  | nil =>
    rw [List.length_eq_zero_iff.mp h]
    rfl
  | cons info pages ih =>
    cases sgl with
    | nil => cases h
    | cons sg sgl =>
      rw [fillTable, ih (Nat.succ.inj h)]
      rfl

/-- The scatter list has an entry for every block. -/
lemma Gathers.table_eq (hs : Gathers total s) (hlength : s.pages.length < 2 ^ 32) :
    s.table = some (s.pages.map PageInfo.sg) := by
  apply fillTable_eq
  rw [List.length_replicate, hs.infocount, BitVec.toNat_ofNat, Nat.mod_eq_of_lt hlength]

/-- Every block has at least one page. -/
lemma Gathers.length_le (hs : Gathers total s) : s.pages.length * pageSize ≤ total := by
  have hsum : s.pages.length * pageSize ≤ (s.pages.map fun p => blockSize p.order).sum := by
    have hle := List.card_nsmul_le_sum (s.pages.map fun p => blockSize p.order) pageSize (by
      intro size hsize
      obtain ⟨p, -, rfl⟩ := List.mem_map.mp hsize
      exact Nat.le_mul_of_pos_right _ (Nat.two_pow_pos _))
    rwa [List.length_map, smul_eq_mul] at hle
  exact hsum.trans (by rw [← hs.sum]; exact Nat.le_add_left ..)

/-- `int infocount` counts up to `2 ^ 31` blocks. -/
lemma Gathers.toInt_infocount (hs : Gathers total s) (hlength : s.pages.length < 2 ^ 31) :
    s.infocount.toInt = s.pages.length := by
  rw [hs.infocount, BitVec.toInt_eq_toNat_of_lt, BitVec.toNat_ofNat, Nat.mod_eq_of_lt (by omega)]
  rw [BitVec.toNat_ofNat, Nat.mod_eq_of_lt (by omega)]
  omega

/-- **The blocks and the scatter list.** -/
theorem buffer_gathered (alloc : ℕ → Option ℕ) (len : BitVec 64) (trace : List (Event Object))
    (hlen : rounding len < 2 ^ 63) :
    ∃ s, (∀ fuel, rounding len / pageSize < fuel → allocLoop alloc fuel (initial len trace) = some s) ∧
      (s.info ≠ none →
        (∀ p ∈ s.pages, p.order ∈ [8, 4, 0]) ∧ s.pages.Pairwise (fun p q => q.order ≤ p.order) ∧
        (s.pages.map fun p => blockSize p.order).sum = rounding len ∧
        (s.pages.length < 2 ^ 31 → ∃ sgl, s.table = some sgl ∧ (sgl.length : ℤ) = s.infocount.toInt ∧
          sgl.map (fun sg => (sg.page, sg.length.toNat)) = s.pages.map fun p => (p.page, blockSize p.order)) ∧
        (rounding len < 2 ^ 43 → s.pages.length < 2 ^ 31)) ∧
      (s.info = none → len = 0 ∨ OutOfPages alloc s) := by
  have hinit := gathers_initial trace hlen
  obtain ⟨s, hloop, hend⟩ := exists_allocLoop alloc hinit
  rw [toNat_sizeRemaining_initial (by omega)] at hloop hend
  have hs := hinit.of_loop (hloop _ (Nat.lt_succ_self _))
  refine ⟨s, hloop, fun hinfo => ⟨hs.order_mem, hs.sorted, ?_, fun hlength => ?_, fun hsmall => ?_⟩, fun hinfo => ?_⟩
  · have hdone : s.sizeRemaining.toNat = 0 := by
      split at hend
      · rw [hend] at hinfo
        exact absurd rfl hinfo
      · exact hend.size hinfo
    rw [← hs.sum, hdone, Nat.zero_add]
  · refine ⟨_, hs.table_eq (by omega), ?_, ?_⟩
    · rw [List.length_map, hs.toInt_infocount hlength]
    · rw [List.map_map]
      apply List.map_congr_left
      intro p hp
      have hsize := (blockSize_of_mem (hs.order_mem p hp)).2
      show (p.page, (BitVec.ofNat 32 (blockSize p.order)).toNat) = _
      rw [BitVec.toNat_ofNat, Nat.mod_eq_of_lt hsize]
  · have hle := hs.length_le
    rw [pageSize] at hle
    omega
  · split at hend
    case isTrue hzero => exact Or.inl (rounding_eq_zero_iff.mp hzero)
    case isFalse => exact Or.inr (hend.out hinfo)

/-- A buffer of five pages. -/
theorem buffer_gathered_five :
    rounding 20000 < 2 ^ 63 ∧
      ∃ s, (∀ fuel, rounding 20000 / pageSize < fuel → allocLoop some fuel (initial 20000 []) = some s) ∧
        (s.info ≠ none →
          (∀ p ∈ s.pages, p.order ∈ [8, 4, 0]) ∧ s.pages.Pairwise (fun p q => q.order ≤ p.order) ∧
          (s.pages.map fun p => blockSize p.order).sum = rounding 20000 ∧
          (s.pages.length < 2 ^ 31 → ∃ sgl, s.table = some sgl ∧ (sgl.length : ℤ) = s.infocount.toInt ∧
            sgl.map (fun sg => (sg.page, sg.length.toNat)) = s.pages.map fun p => (p.page, blockSize p.order)) ∧
          (rounding 20000 < 2 ^ 43 → s.pages.length < 2 ^ 31)) ∧
        (s.info = none → (20000 : BitVec 64) = 0 ∨ OutOfPages some s) :=
  ⟨by decide, buffer_gathered some 20000 [] (by decide)⟩

/-- Single pages are enough where no request is refused. -/
lemma serves_singles (n k : ℕ) (hmet : ∀ i, k ≤ i → alloc i ≠ none) : Serves alloc k (n * pageSize) 0 := by
  induction n generalizing k with
  | zero =>
    rw [Nat.zero_mul]
    exact .done
  | succ n ih =>
    have hfit : (fitting ((n + 1) * pageSize) 0)[0]? = some 0 := by
      have hle : blockSize 0 ≤ (n + 1) * pageSize := Nat.le_mul_of_pos_left _ (Nat.succ_pos n)
      simp [fitting, orders, hle]
    refine .block hfit (fun i hi => absurd hi (Nat.not_lt_zero i)) (hmet _ (Nat.le_refl k)) ?_
    have hrest : (n + 1) * pageSize - blockSize 0 = n * pageSize := by
      rw [Nat.succ_mul]
      exact Nat.add_sub_cancel ..
    rw [hrest]
    exact ih _ fun i hi => hmet i (by omega)

/-- Once the larger blocks are given up there are single pages only. -/
lemma singles_of_loop {fuel : ℕ} {s' : State} (h : s.maxOrder = 0 ∧ ∀ p ∈ s.pages, p.order = 0)
    (hloop : allocLoop alloc fuel s = some s') : s'.maxOrder = 0 ∧ ∀ p ∈ s'.pages, p.order = 0 := by
  apply allocLoop_inv (I := fun s => s.maxOrder = 0 ∧ ∀ p ∈ s.pages, p.order = 0) (fun _ _ h => h) ?_ (fun _ h => h)
    h hloop
  intro s page order horder h
  have hzero : order = 0 := Nat.le_zero.mp (h.1 ▸ (mem_fitting.mp horder).2.2)
  refine ⟨hzero, fun p hp => ?_⟩
  rcases List.mem_append.mp hp with hold | hnew
  · exact h.2 p hold
  · rw [List.mem_singleton.mp hnew]
    exact hzero

/-- The number of single pages. -/
lemma Gathers.length_of_singles (hs : Gathers total s) (hsize : s.sizeRemaining.toNat = 0)
    (hsingle : ∀ p ∈ s.pages, p.order = 0) : s.pages.length * pageSize = total := by
  have hsum := hs.sum
  have hsizes : (s.pages.map fun p => blockSize p.order) = List.replicate s.pages.length pageSize := by
    apply List.eq_replicate_iff.mpr
    refine ⟨List.length_map _, fun size hmem => ?_⟩
    obtain ⟨p, hp, rfl⟩ := List.mem_map.mp hmem
    rw [hsingle p hp]
    rfl
  rwa [hsize, hsizes, List.sum_replicate, smul_eq_mul, Nat.zero_add] at hsum

/-- Eight tebibytes in single pages: `infocount` is negative. -/
theorem not_buffer_gathered_single_pages :
    rounding 0x80000000000 < 2 ^ 63 ∧
      ∃ s, (∀ fuel, rounding 0x80000000000 / pageSize < fuel →
          allocLoop (fun k => if k < 2 then none else some k) fuel (initial 0x80000000000 []) = some s) ∧
        s.info ≠ none ∧ ¬∃ sgl, s.table = some sgl ∧ (sgl.length : ℤ) = s.infocount.toInt := by
  have hlen : rounding 0x80000000000 = 0x80000000 * pageSize := by decide
  have hlt : rounding 0x80000000000 < 2 ^ 63 := by decide
  have hinit := gathers_initial [] hlt
  refine ⟨hlt, ?_⟩
  set alloc : ℕ → Option ℕ := fun k => if k < 2 then none else some k with halloc
  obtain ⟨s, hloop, hend⟩ := exists_allocLoop alloc hinit
  rw [toNat_sizeRemaining_initial (by omega)] at hloop hend
  rw [if_neg (by rw [hlen]; decide)] at hend
  have hs := hinit.of_loop (hloop _ (Nat.lt_succ_self _))
  -- The larger blocks are refused in the first round, which ends with a single page.
  have hserves : Serves alloc 0 (rounding 0x80000000000) 8 := by
    have hfit : (fitting (rounding 0x80000000000) 8)[2]? = some 0 := by decide
    refine .block hfit (fun i hi => ?_) (by simp [halloc]) ?_
    · simp only [halloc, Nat.zero_add, if_pos hi]
    · have hrest : rounding 0x80000000000 - blockSize 0 = 0x7fffffff * pageSize := by decide
      rw [hrest]
      apply serves_singles
      intro i hi
      simp only [halloc, if_neg (show ¬i < 2 by omega)]
      exact Option.some_ne_none i
  have hinfo : s.info ≠ none := by
    refine hend.info.mpr ?_
    rw [toNat_sizeRemaining_initial (by omega)]
    exact hserves
  have hsingle : s.maxOrder = 0 ∧ ∀ p ∈ s.pages, p.order = 0 := by
    have hfirst := hloop (rounding 0x80000000000 / pageSize + 1) (Nat.lt_succ_self _)
    have htest : (0#64).slt (initial 0x80000000000 []).sizeRemaining = true := rfl
    have hinfo₁ : (tryOrders alloc orders { initial 0x80000000000 [] with info := none }).info = some ⟨2, 2, 0⟩ := rfl
    have hpages₁ : (tryOrders alloc orders { initial 0x80000000000 [] with info := none }).pages = [⟨2, 2, 0⟩] := rfl
    have hmax₁ : (tryOrders alloc orders { initial 0x80000000000 [] with info := none }).maxOrder = 0 := rfl
    rw [allocLoop, if_pos htest] at hfirst
    dsimp only at hfirst
    rw [if_neg (by rw [hinfo₁]; exact Option.some_ne_none _)] at hfirst
    refine singles_of_loop ⟨hmax₁, fun p hp => ?_⟩ hfirst
    rw [hpages₁] at hp
    rw [List.mem_singleton.mp hp]
  have hlength : s.pages.length = 0x80000000 := by
    have htotal := hs.length_of_singles (hend.size hinfo) hsingle.2
    rw [hlen] at htotal
    exact Nat.eq_of_mul_eq_mul_right (by decide) htotal
  refine ⟨s, hloop, hinfo, ?_⟩
  rintro ⟨sgl, -, heq⟩
  have hneg : s.infocount.toInt < 0 := by
    rw [hs.infocount, hlength]
    decide
  omega

end Xbsv.Portalmem
