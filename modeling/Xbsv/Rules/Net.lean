import Mathlib.Logic.Function.Basic
import Xbsv.Rules.Fifo

set_option relaxedAutoImplicit false
set_option autoImplicit false

/-!
# Networks of queues

A bounded queue at each node, and elements that move from queue to queue. Where an element goes next
is a function of the node and the element, and it may change the element on the way (a routing tag
that is used up). Elements enter at the top of the network and leave at the bottom.

Every element belongs to a stream. The elements of one stream follow one path, so that they leave in
the order in which they entered, whatever the elements of other streams do in between: `stream` lists
them from the bottom to the top, and moving an element leaves that list as it is.

## Main definitions

* `Rules.Net` — the queues of a network.
* `Rules.Net.enq`, `Rules.Net.deq`, `Rules.Net.move` — enter, leave, and move on.
* `Rules.Net.Paths` — the paths of the streams.
* `Rules.Net.stream` — the elements of one stream, oldest first.
* `Rules.Net.Only` — a network with a single element.

## Main results

* `Rules.Net.stream_enq`, `Rules.Net.stream_deq`, `Rules.Net.stream_move` — what the operations do to
  the streams.
-/

namespace Rules

/-- A network with a queue of capacity `cap n` at each node `n`. -/
structure Net {N : Type*} (cap : N → ℕ) (α : Type*) where
  /-- The queue at a node. -/
  queue : (n : N) → Fifo (cap n) α

namespace Net

variable {N α β K : Type*} {cap : N → ℕ}

/-- The network without elements. -/
def empty : Net cap α := ⟨fun _ => .empty⟩

instance : Inhabited (Net cap α) := ⟨empty⟩

/-- The elements at a node. -/
def items (s : Net cap α) (n : N) : List α := (s.queue n).items

@[simp] lemma items_empty (n : N) : (empty : Net cap α).items n = [] := rfl

variable [DecidableEq N]

/-- An element enters at node `n`; refused when the queue there is full. -/
def enq (s : Net cap α) (n : N) (x : α) : Option (Net cap α) :=
  ((s.queue n).enq x).map fun q => ⟨Function.update s.queue n q⟩

/-- The oldest element at node `n` leaves. -/
def deq (s : Net cap α) (n : N) : Option (α × Net cap α) :=
  (s.queue n).deq.map fun r => (r.1, ⟨Function.update s.queue n r.2⟩)

/-- The oldest element at node `n` moves on to the next node of its path. -/
def move (route : N → α → Option (N × α)) (s : Net cap α) (n : N) : Option (Net cap α) := do
  let (x, s₁) ← s.deq n
  let (m, y) ← route n x
  s₁.enq m y

/-- A successful `enq` found room and appended its element at one node. -/
lemma enq_eq_some {s s' : Net cap α} {n : N} {x : α} (h : s.enq n x = some s') :
    (s.items n).length < cap n ∧
      ∀ m, s'.items m = if m = n then s.items n ++ [x] else s.items m := by
  simp only [enq, Option.map_eq_some_iff, Fifo.enq_eq_some] at h
  obtain ⟨q, ⟨hlt, hq⟩, rfl⟩ := h
  refine ⟨hlt, fun m => ?_⟩
  by_cases hm : m = n
  · subst hm
    simp [items, hq]
  · simp [items, hm]

/-- A successful `deq` removed the oldest element of one node. -/
lemma deq_eq_some {s s' : Net cap α} {n : N} {x : α} (h : s.deq n = some (x, s')) :
    s.items n = x :: s'.items n ∧ ∀ m, m ≠ n → s'.items m = s.items m := by
  simp only [deq, Option.map_eq_some_iff, Prod.exists, Fifo.deq_eq_some, Prod.mk.injEq] at h
  obtain ⟨y, q, hq, rfl, rfl⟩ := h
  refine ⟨by simp [items, hq], fun m hm => ?_⟩
  simp [items, hm]

/-- There is room at a node whose queue is not full. -/
lemma exists_enq {s : Net cap α} {n : N} (h : (s.items n).length < cap n) (x : α) :
    ∃ s', s.enq n x = some s' := by
  obtain ⟨q, hq, -⟩ := Fifo.exists_enq h x
  exact ⟨_, by rw [enq, hq, Option.map_some]⟩

/-- An element can leave a node whose queue is not empty. -/
lemma exists_deq {s : Net cap α} {n : N} {x : α} {xs : List α} (h : s.items n = x :: xs) :
    ∃ s', s.deq n = some (x, s') := by
  obtain ⟨q, hq, -⟩ := Fifo.exists_deq h
  exact ⟨_, by rw [deq, hq, Option.map_some]⟩

/-- A successful `move` took the oldest element of a node to the node its route says. -/
lemma move_eq_some {route : N → α → Option (N × α)} {s s' : Net cap α} {n : N}
    (h : s.move route n = some s') :
    ∃ x m y s₁, s.deq n = some (x, s₁) ∧ route n x = some (m, y) ∧ s₁.enq m y = some s' := by
  simp only [move, bind, Option.bind_eq_some_iff, Prod.exists] at h
  obtain ⟨x, s₁, hd, m, y, hr, he⟩ := h
  exact ⟨x, m, y, s₁, hd, hr, he⟩

/-- All elements are of the kind that belongs to their nodes. -/
def Everywhere (Q : N → α → Prop) (s : Net cap α) : Prop := ∀ n, ∀ x ∈ s.items n, Q n x

section Everywhere

variable {s s' : Net cap α} {Q : N → α → Prop} {n : N} {x : α}

lemma Everywhere.enq (hq : s.Everywhere Q) (h : s.enq n x = some s') (hx : Q n x) :
    s'.Everywhere Q := by
  obtain ⟨-, hitems⟩ := enq_eq_some h
  intro m y hy
  rw [hitems m] at hy
  split at hy
  · rename_i hm
    subst hm
    rcases List.mem_append.mp hy with hy | hy
    · exact hq m y hy
    · rw [List.mem_singleton.mp hy]
      exact hx
  · exact hq m y hy

lemma Everywhere.deq (hq : s.Everywhere Q) (h : s.deq n = some (x, s')) : s'.Everywhere Q := by
  obtain ⟨hn, hne⟩ := deq_eq_some h
  intro m y hy
  by_cases hm : m = n
  · subst hm
    exact hq m y (by rw [hn]; exact List.mem_cons_of_mem _ hy)
  · rw [hne m hm] at hy
    exact hq m y hy

lemma Everywhere.move {route : N → α → Option (N × α)} (hq : s.Everywhere Q)
    (h : s.move route n = some s') (hroute : ∀ {x m y}, Q n x → route n x = some (m, y) → Q m y) :
    s'.Everywhere Q := by
  obtain ⟨x, m, y, s₁, hdeq, hr, henq⟩ := move_eq_some h
  have hx : Q n x := hq n x (by rw [(deq_eq_some hdeq).1]; exact List.mem_cons_self)
  exact (hq.deq hdeq).enq henq (hroute hx hr)

/-- An element moves on if there is room for it. -/
lemma exists_move {route : N → α → Option (N × α)} {xs : List α} {m : N} {y : α}
    (hn : s.items n = x :: xs) (hroute : route n x = some (m, y)) (hmn : m ≠ n)
    (hroom : (s.items m).length < cap m) : ∃ s', s.move route n = some s' := by
  obtain ⟨s₁, hdeq⟩ := exists_deq hn
  obtain ⟨s', henq⟩ := exists_enq (s := s₁) (n := m) (by rwa [(deq_eq_some hdeq).2 m hmn]) y
  exact ⟨s', by simp [move, hdeq, hroute, henq]⟩

end Everywhere

/-! ## Streams -/

/-- The paths of the streams `K` of a network: `key` tells the stream of an element at a node and
`pay` what it carries; `pos k j` is the node of stream `k` at level `j`, counted from the bottom. -/
structure Paths (N α β K : Type*) where
  key : N → α → K
  pay : α → β
  level : N → ℕ
  pos : K → ℕ → N

/-- A route takes an element of a stream one level down its path. -/
structure Paths.Follows (P : Paths N α β K) (route : N → α → Option (N × α)) : Prop where
  level_pos : ∀ k j, P.level (P.pos k j) = j
  route_eq : ∀ {n x m y}, route n x = some (m, y) → P.pos (P.key n x) (P.level n) = n →
    P.level n = P.level m + 1 ∧ P.key m y = P.key n x ∧ P.pay y = P.pay x ∧
      P.pos (P.key n x) (P.level m) = m

section Streams

variable (P : Paths N α β K)

/-- Every element is on the path of its stream. -/
def Confined (s : Net cap α) : Prop :=
  s.Everywhere fun n x => P.pos (P.key n x) (P.level n) = n

variable [DecidableEq K]

/-- What the elements of stream `k` at a node carry, oldest first. -/
def lane (s : Net cap α) (k : K) (n : N) : List β :=
  ((s.items n).filter fun x => P.key n x = k).map P.pay

/-- What the elements of stream `k` below level `d` carry, oldest first. -/
def stream (s : Net cap α) (k : K) : ℕ → List β
  | 0 => []
  | d + 1 => stream s k d ++ s.lane P k (P.pos k d)

variable {P} {s s' : Net cap α} {k : K}

omit [DecidableEq N] in
/-- Streams that agree below level `e`, and at the nodes above it. -/
lemma stream_congr (e : ℕ) {d : ℕ} (hd : e ≤ d) (he : s'.stream P k e = s.stream P k e)
    (h : ∀ j, e ≤ j → j < d → s'.lane P k (P.pos k j) = s.lane P k (P.pos k j)) :
    s'.stream P k d = s.stream P k d := by
  induction d with
  | zero =>
    obtain rfl : e = 0 := by omega
    exact he
  | succ d ih =>
    rcases Nat.lt_or_ge d e with hlt | hge
    · obtain rfl : e = d + 1 := by omega
      exact he
    · have hlast := h d hge (Nat.lt_succ_self d)
      have hrest := ih hge fun j hj hjd => h j hj (Nat.lt_succ_of_lt hjd)
      rw [stream, stream, hrest, hlast]

omit [DecidableEq N] in
/-- The lanes of two levels are part of the stream. -/
lemma length_lane_add_le {a b d : ℕ} (hab : a < b) (hbd : b < d) :
    (s.lane P k (P.pos k a)).length + (s.lane P k (P.pos k b)).length ≤ (s.stream P k d).length := by
  have hone : ∀ {c d : ℕ}, c < d → (s.lane P k (P.pos k c)).length ≤ (s.stream P k d).length := by
    intro c d hcd
    induction d with
    | zero => omega
    | succ d ih =>
      rw [stream, List.length_append]
      rcases Nat.lt_or_ge c d with hlt | hge
      · have := ih hlt
        omega
      · obtain rfl : c = d := by omega
        omega
  induction d with
  | zero => omega
  | succ d ih =>
    rw [stream, List.length_append]
    rcases Nat.lt_or_ge b d with hlt | hge
    · have := ih hlt
      omega
    · obtain rfl : b = d := by omega
      have := hone hab
      omega

omit [DecidableEq N] in
/-- The lane at a level is part of the stream. -/
lemma mem_stream {a d : ℕ} (had : a < d) {y : β} (hy : y ∈ s.lane P k (P.pos k a)) :
    y ∈ s.stream P k d := by
  induction d with
  | zero => omega
  | succ d ih =>
    rw [stream, List.mem_append]
    rcases Nat.lt_or_ge a d with hlt | hge
    · exact .inl (ih hlt)
    · obtain rfl : a = d := by omega
      exact .inr hy

omit [DecidableEq N] in
/-- When a stream has run dry, none of its elements is left in the network. -/
lemma Confined.everywhere_ne (hc : s.Confined P) {d : ℕ} (hd : s.Everywhere fun n _ => P.level n < d)
    (hs : s.stream P k d = []) : s.Everywhere fun n x => P.key n x ≠ k := by
  intro n x hx hk
  have hpos : P.pos k (P.level n) = n := by
    rw [← hk]
    exact hc n x hx
  have hlane : P.pay x ∈ s.lane P k (P.pos k (P.level n)) := by
    rw [hpos]
    exact List.mem_map_of_mem (List.mem_filter.mpr ⟨hx, by simpa using hk⟩)
  have hmem := mem_stream (hd n x hx) hlane
  rw [hs] at hmem
  cases hmem

omit [DecidableEq N] in
/-- A stream without elements. -/
lemma stream_eq_nil (h : s.Everywhere fun n x => P.key n x ≠ k) (d : ℕ) : s.stream P k d = [] := by
  induction d with
  | zero => rfl
  | succ d ih =>
    have hlane : s.lane P k (P.pos k d) = [] := by
      rw [lane, List.filter_eq_nil_iff.mpr fun x hx => by simpa using h _ x hx]
      rfl
    rw [stream, ih, hlane]
    rfl

omit [DecidableEq N] in
/-- A stream depends only on its own path. -/
lemma stream_paths_congr {P' : Paths N α β K} (hkey : P'.key = P.key) (hpay : P'.pay = P.pay)
    (hpos : P'.pos k = P.pos k) (d : ℕ) : s.stream P' k d = s.stream P k d := by
  induction d with
  | zero => rfl
  | succ d ih => rw [stream, stream, ih, hpos, lane, lane, hkey, hpay]

/-- `enq` extends one lane. -/
lemma lane_enq {n : N} {x : α} (h : s.enq n x = some s') (m : N) :
    s'.lane P k m = s.lane P k m ++ if m = n ∧ P.key n x = k then [P.pay x] else [] := by
  obtain ⟨-, hitems⟩ := enq_eq_some h
  rw [lane, hitems m]
  by_cases hm : m = n
  · subst hm
    by_cases hk : P.key m x = k
    · simp [lane, hk]
    · simp [lane, hk]
  · simp [lane, hm]

/-- `deq` shortens one lane. -/
lemma lane_deq {n : N} {x : α} (h : s.deq n = some (x, s')) (m : N) :
    s.lane P k m = (if m = n ∧ P.key n x = k then [P.pay x] else []) ++ s'.lane P k m := by
  obtain ⟨hn, hne⟩ := deq_eq_some h
  by_cases hm : m = n
  · subst hm
    rw [lane, hn]
    by_cases hk : P.key m x = k
    · simp [lane, hk]
    · simp [lane, hk]
  · simp [lane, hm, hne m hm]

/-- An element that enters at the top of its path is the youngest of its stream. -/
lemma stream_enq {route : N → α → Option (N × α)} (hf : P.Follows route) {n : N} {x : α} {d : ℕ}
    (h : s.enq n x = some s') (hn : P.pos (P.key n x) d = n) :
    s'.stream P k (d + 1) = s.stream P k (d + 1) ++ if P.key n x = k then [P.pay x] else [] := by
  -- below the top no lane of stream `k` changes
  have hbelow : s'.stream P k d = s.stream P k d := by
    refine stream_congr 0 (Nat.zero_le d) rfl fun j _ hj => ?_
    have hne : ¬ (P.pos k j = n ∧ P.key n x = k) := by
      rintro ⟨hj', rfl⟩
      have h₁ := hf.level_pos (P.key n x) j
      have h₂ := hf.level_pos (P.key n x) d
      rw [hj'] at h₁
      rw [hn] at h₂
      omega
    rw [lane_enq h, if_neg hne, List.append_nil]
  rw [stream, stream, hbelow, lane_enq h, List.append_assoc]
  by_cases hk : P.key n x = k
  · have hpos : P.pos k d = n := by rw [← hk, hn]
    simp [hk, hpos]
  · simp [hk]

/-- The oldest element of a stream leaves at the bottom of its path. -/
lemma stream_deq {route : N → α → Option (N × α)} (hf : P.Follows route) {n : N} {x : α} (d : ℕ)
    (h : s.deq n = some (x, s')) (hn : P.pos (P.key n x) 0 = n) :
    s.stream P k (d + 1) = (if P.key n x = k then [P.pay x] else []) ++ s'.stream P k (d + 1) := by
  induction d with
  | zero =>
    simp only [stream, List.nil_append]
    rw [lane_deq h]
    by_cases hk : P.key n x = k
    · have hpos : P.pos k 0 = n := by rw [← hk, hn]
      simp [hk, hpos]
    · simp [hk]
  | succ d ih =>
    have hne : ¬ (P.pos k (d + 1) = n ∧ P.key n x = k) := by
      rintro ⟨hj', rfl⟩
      have h₁ := hf.level_pos (P.key n x) (d + 1)
      have h₂ := hf.level_pos (P.key n x) 0
      rw [hj'] at h₁
      rw [hn] at h₂
      omega
    have hlane := lane_deq (P := P) (k := k) h (P.pos k (d + 1))
    rw [if_neg hne, List.nil_append] at hlane
    calc s.stream P k (d + 1 + 1) = s.stream P k (d + 1) ++ s.lane P k (P.pos k (d + 1)) := rfl
      _ = ((if P.key n x = k then [P.pay x] else []) ++ s'.stream P k (d + 1)) ++
          s'.lane P k (P.pos k (d + 1)) := by rw [ih, hlane]
      _ = (if P.key n x = k then [P.pay x] else []) ++ s'.stream P k (d + 1 + 1) := by
        rw [List.append_assoc]
        rfl

/-- **Moving an element leaves all streams as they are.**

**Proof sketch.** Only the stream of the element is concerned. Its lane one level down grows by the
element at the end and its lane at the node loses it at the front, and the stream lists the one just
before the other. -/
theorem stream_move {route : N → α → Option (N × α)} (hf : P.Follows route) (hc : s.Confined P) {n : N}
    (h : s.move route n = some s') {d : ℕ} (hd : P.level n < d) :
    s'.stream P k d = s.stream P k d := by
  obtain ⟨x, m, y, s₁, hdeq, hroute, henq⟩ := move_eq_some h
  obtain ⟨hn, -⟩ := deq_eq_some hdeq
  have hpos : P.pos (P.key n x) (P.level n) = n := hc n x (by rw [hn]; exact List.mem_cons_self)
  obtain ⟨hlevel, hkey, hpay, hposm⟩ := hf.route_eq hroute hpos
  have hmn : m ≠ n := by
    rintro rfl
    omega
  by_cases hk : P.key n x = k
  · subst hk
    -- the lanes at other levels are the same
    have hother : ∀ j, j ≠ P.level m → j ≠ P.level n →
        s'.lane P (P.key n x) (P.pos (P.key n x) j) = s.lane P (P.key n x) (P.pos (P.key n x) j) := by
      intro j hjm hjn
      have h₁ : P.pos (P.key n x) j ≠ m := by
        rintro rfl
        exact hjm (hf.level_pos _ _).symm
      have h₂ : P.pos (P.key n x) j ≠ n := by
        intro he
        rw [← he] at hjn
        exact hjn (hf.level_pos _ _).symm
      rw [lane_enq henq, lane_deq hdeq]
      simp [h₁, h₂]
    have hbelow : s'.stream P (P.key n x) (P.level m) = s.stream P (P.key n x) (P.level m) :=
      stream_congr 0 (Nat.zero_le _) rfl fun j _ hj => hother j (by omega) (by omega)
    have hm : s'.lane P (P.key n x) m = s.lane P (P.key n x) m ++ [P.pay x] := by
      rw [lane_enq henq, lane_deq hdeq]
      simp [hkey, hpay, hmn]
    have hn' : s.lane P (P.key n x) n = P.pay x :: s'.lane P (P.key n x) n := by
      rw [lane_enq henq, lane_deq hdeq]
      simp [hmn.symm]
    refine stream_congr (P.level n + 1) hd ?_ fun j hj _ => hother j (by omega) (by omega)
    rw [stream, stream, hpos, hlevel, stream, stream, hposm, hbelow, hm, hn']
    simp
  · refine stream_congr 0 (Nat.zero_le d) rfl fun j _ _ => ?_
    rw [lane_enq henq, lane_deq hdeq]
    simp [hkey, hk]

end Streams

section Confined

variable {P : Paths N α β K} {s s' : Net cap α}

/-- Moving elements stay on their path. -/
lemma Confined.move {route : N → α → Option (N × α)} (hc : s.Confined P) (hf : P.Follows route) {n : N}
    (h : s.move route n = some s') : s'.Confined P := by
  refine Everywhere.move hc h fun hpos hroute => ?_
  obtain ⟨hlevel, hkey, hpay, hposm⟩ := hf.route_eq hroute hpos
  rw [hkey, hposm]

end Confined

/-! ## A single element -/

/-- There is no element. -/
def IsEmpty (s : Net cap α) : Prop := ∀ n, s.items n = []

/-- `x` at node `n` is the only element. -/
def Only (s : Net cap α) (n : N) (x : α) : Prop := ∀ m, s.items m = if m = n then [x] else []

section Single

variable {s s' : Net cap α} {route : N → α → Option (N × α)} {n m : N} {x y : α}

omit [DecidableEq N] in
lemma isEmpty_empty : (empty : Net cap α).IsEmpty := fun _ => rfl

lemma IsEmpty.enq (h : s.IsEmpty) (henq : s.enq n x = some s') : s'.Only n x := by
  obtain ⟨-, hitems⟩ := enq_eq_some henq
  intro m
  rw [hitems m, h n, h m, List.nil_append]

lemma IsEmpty.exists_enq (h : s.IsEmpty) (hcap : 0 < cap n) (x : α) : ∃ s', s.enq n x = some s' :=
  Net.exists_enq (by rwa [h n, List.length_nil]) x

lemma IsEmpty.deq_eq_none (h : s.IsEmpty) (n : N) : s.deq n = none := by
  refine Option.eq_none_iff_forall_ne_some.mpr fun ⟨x, s'⟩ hdeq => ?_
  obtain ⟨hn, -⟩ := deq_eq_some hdeq
  rw [h n] at hn
  cases hn

lemma IsEmpty.move_eq_none (h : s.IsEmpty) (n : N) : s.move route n = none := by
  rw [move, h.deq_eq_none n]
  rfl

/-- The only element leaves. -/
lemma Only.deq (h : s.Only n x) (hdeq : s.deq m = some (y, s')) : m = n ∧ y = x ∧ s'.IsEmpty := by
  obtain ⟨hm, hne⟩ := deq_eq_some hdeq
  rw [h m] at hm
  split at hm
  · rename_i hmn
    subst hmn
    obtain ⟨rfl, hnil⟩ := List.cons_eq_cons.mp hm
    refine ⟨rfl, rfl, fun k => ?_⟩
    by_cases hk : k = m
    · rw [hk, ← hnil]
    · rw [hne k hk, h k, if_neg hk]
  · cases hm

lemma Only.exists_deq (h : s.Only n x) : ∃ s', s.deq n = some (x, s') := by
  have hn : s.items n = x :: [] := (h n).trans (if_pos rfl)
  exact Net.exists_deq hn

/-- The only element moves on. -/
lemma Only.move (h : s.Only n x) (hmove : s.move route m = some s') :
    m = n ∧ ∃ k y, route n x = some (k, y) ∧ s'.Only k y := by
  obtain ⟨x', k, y, s₁, hdeq, hroute, henq⟩ := move_eq_some hmove
  obtain ⟨rfl, rfl, hempty⟩ := h.deq hdeq
  exact ⟨rfl, k, y, hroute, hempty.enq henq⟩

lemma Only.exists_move (h : s.Only n x) (hroute : route n x = some (m, y)) (hmn : m ≠ n)
    (hcap : 0 < cap m) : ∃ s', s.move route n = some s' := by
  have hn : s.items n = x :: [] := (h n).trans (if_pos rfl)
  refine Net.exists_move hn hroute hmn ?_
  rwa [h m, if_neg hmn, List.length_nil]

end Single

end Net

end Rules
