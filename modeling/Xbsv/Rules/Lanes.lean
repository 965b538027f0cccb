import Mathlib.Data.List.Induction
import Mathlib.Tactic.Common
import Xbsv.Bits.Rounds
import Xbsv.Rules.Fifo

set_option relaxedAutoImplicit false
set_option autoImplicit false

/-!
# Queues of several elements at a time

Two ways to put several elements into a queue in one step, and to take several out.

A queue may have operations that take a list. Or there may be `n` queues, its lanes, to which the elements
are dealt out in turn: an element goes to the lane that is its number modulo `n`.

## Main definitions

* `Rules.Fifo.enqN`, `Rules.Fifo.deqN` — several elements of one queue.
* `Rules.lane` — the elements that go to a lane.
* `Rules.ReadFrom` — vectors that are taken from the first lanes.

## Main results

* `Rules.lane_append` — one list after another.
* `Rules.lane_eq_getElem?` — a list that is not longer than there are lanes gives at most one to each.
* `Rules.getElem?_lane` — the elements of a lane, in rounds.
* `Rules.ReadFrom.flatten_prefix`, `Rules.ReadFrom.full_of_prefix` — vectors from the first lanes give the list in
  order if, and only if, all but the last have an element of each lane.
-/

namespace Rules

namespace Fifo

variable {n : ℕ} {α : Type*}

/-- There is room for `c` elements. -/
def enqReadyN (q : Fifo n α) (c : ℕ) : Bool := decide (q.items.length + c ≤ n)

/-- There are `c` elements. -/
def deqReadyN (q : Fifo n α) (c : ℕ) : Bool := decide (c ≤ q.items.length)

/-- Append several elements; refused when there is no room for them. -/
def enqN (q : Fifo n α) (xs : List α) : Option (Fifo n α) :=
  if h : q.items.length + xs.length ≤ n then
    some ⟨q.items ++ xs, by rw [List.length_append]; exact h⟩
  else none

/-- Drop the `c` oldest elements; refused when there are not as many. -/
def deqN (q : Fifo n α) (c : ℕ) : Option (Fifo n α) :=
  if c ≤ q.items.length then
    some ⟨q.items.drop c, Nat.le_trans (List.drop_sublist c q.items).length_le q.length_le⟩
  else none

/-- A successful `enqN` found room and appended its elements. -/
lemma enqN_eq_some {q q' : Fifo n α} {xs : List α} :
    q.enqN xs = some q' ↔ q.items.length + xs.length ≤ n ∧ q'.items = q.items ++ xs := by
  unfold enqN
  split
  · rename_i h
    rw [Option.some.injEq]
    exact ⟨fun he => ⟨h, he ▸ rfl⟩, fun he => Fifo.ext he.2.symm⟩
  · rename_i h
    exact ⟨fun he => (by cases he), fun he => absurd he.1 h⟩

/-- `enqN` succeeds when there is room. -/
lemma exists_enqN {q : Fifo n α} {xs : List α} (h : q.items.length + xs.length ≤ n) :
    ∃ q', q.enqN xs = some q' ∧ q'.items = q.items ++ xs := by
  refine ⟨⟨q.items ++ xs, by rw [List.length_append]; exact h⟩, ?_, rfl⟩
  rw [enqN_eq_some]
  exact ⟨h, rfl⟩

/-- A successful `deqN` found the elements and dropped them. -/
lemma deqN_eq_some {q q' : Fifo n α} {c : ℕ} :
    q.deqN c = some q' ↔ c ≤ q.items.length ∧ q'.items = q.items.drop c := by
  unfold deqN
  split
  · rename_i h
    rw [Option.some.injEq]
    exact ⟨fun he => ⟨h, he ▸ rfl⟩, fun he => Fifo.ext he.2.symm⟩
  · rename_i h
    exact ⟨fun he => (by cases he), fun he => absurd he.1 h⟩

/-- Drop the oldest element, if there is one. -/
def tail (q : Fifo n α) : Fifo n α :=
  ⟨q.items.tail, Nat.le_trans (List.tail_sublist q.items).length_le q.length_le⟩

@[simp] lemma items_tail (q : Fifo n α) : q.tail.items = q.items.tail := rfl

end Fifo

variable {α : Type*} {n j o : ℕ} {l l' : List α}

/-- The elements of a list that go to the lane `j`, if the first has the number `o`. -/
def lane (n j : ℕ) : ℕ → List α → List α
  | _, [] => []
  | o, x :: l => if o % n = j then x :: lane n j (o + 1) l else lane n j (o + 1) l

@[simp] lemma lane_nil : lane n j o ([] : List α) = [] := rfl

lemma lane_cons {x : α} :
    lane n j o (x :: l) = if o % n = j then x :: lane n j (o + 1) l else lane n j (o + 1) l := rfl

/-- One list after another. -/
lemma lane_append : lane n j o (l ++ l') = lane n j o l ++ lane n j (o + l.length) l' := by
  induction l generalizing o with
  | nil => rfl
  | cons x l ih =>
    have hsum : o + (x :: l).length = o + 1 + l.length := by
      rw [List.length_cons]
      omega
    rw [List.cons_append, hsum, lane_cons, lane_cons, ih]
    split <;> rfl

/-- Numbers count modulo `n`. -/
lemma lane_congr {o' : ℕ} (h : o % n = o' % n) : lane n j o l = lane n j o' l := by
  induction l generalizing o o' with
  | nil => rfl
  | cons x l ih =>
    have hnext : (o + 1) % n = (o' + 1) % n := by rw [Nat.add_mod, h, ← Nat.add_mod]
    rw [lane_cons, lane_cons, h, ih hnext]

/-- A list that is not longer than there are lanes gives at most one element to each: to the lane of the
number `o + i` it gives the element `i`. -/
lemma lane_eq_getElem? {i : ℕ} (hi : i < n) (hl : l.length ≤ n) :
    lane n ((o + i) % n) o l = l[i]?.toList := by
  -- for the induction: the numbers may begin within the list of lanes
  suffices h : ∀ (d : ℕ) (l : List α), d + l.length ≤ n →
      lane n ((o + i) % n) (o + d) l = if d ≤ i then l[i - d]?.toList else [] by
    simpa using h 0 l (by omega)
  intro d l hd
  induction l generalizing d with
  | nil => simp
  | cons x l ih =>
    rw [List.length_cons] at hd
    have hih := ih (d + 1) (by omega)
    rw [← Nat.add_assoc] at hih
    rw [lane_cons, hih]
    have hne (hdi : d ≠ i) : ¬ (o + d) % n = (o + i) % n := fun he =>
      hdi ((Bits.add_mod_inj o (by omega) hi).mp he)
    rcases Nat.lt_trichotomy d i with hlt | rfl | hgt
    · obtain ⟨e, he⟩ : ∃ e, i - d = e + 1 := ⟨i - d - 1, by omega⟩
      have he' : i - (d + 1) = e := by omega
      rw [if_neg (hne (by omega)), if_pos (by omega), if_pos (by omega), he, he', List.getElem?_cons_succ]
    · rw [if_pos rfl, if_neg (by omega), if_pos (by omega), Nat.sub_self]
      rfl
    · rw [if_neg (hne (by omega)), if_neg (by omega), if_neg (by omega)]

/-- Every lane is the lane of one of the next `n` numbers. -/
lemma exists_lane (o : ℕ) (hj : j < n) : ∃ i < n, j = (o + i) % n := by
  refine ⟨(j + (n - o % n)) % n, Nat.mod_lt _ (by omega), ?_⟩
  have ho := Nat.mod_lt o (by omega : 0 < n)
  have hdiv := Nat.mod_add_div o n
  rw [Nat.add_mod, Nat.mod_mod, ← Nat.add_mod]
  have hsum : o + (j + (n - o % n)) = j + n * (o / n + 1) := by
    rw [Nat.mul_add]
    omega
  rw [hsum, Nat.add_mul_mod_self_left, Nat.mod_eq_of_lt hj]

/-- The lane of an element is not empty. -/
lemma lane_ne_nil {i : ℕ} (hi : i < n) (hl : i < l.length) : lane n ((o + i) % n) o l ≠ [] := by
  have hlen : (l.take (i + 1)).length = i + 1 := by
    rw [List.length_take]
    omega
  rw [← List.take_append_drop (i + 1) l, lane_append, lane_eq_getElem? hi (by omega),
    List.getElem?_eq_getElem (by omega)]
  simp

/-- The elements of a list go to the lanes in rounds. -/
lemma lane_eq_cons (hj : j < n) (l : List α) : lane n j 0 l = l[j]?.toList ++ lane n j 0 (l.drop n) := by
  have hfirst (l' : List α) (hl : l'.length ≤ n) : lane n j 0 l' = l'[j]?.toList := by
    have h := lane_eq_getElem? (o := 0) hj hl
    rwa [Nat.zero_add, Nat.mod_eq_of_lt hj] at h
  rcases Nat.le_total l.length n with hle | hle
  · rw [List.drop_eq_nil_of_le hle, lane_nil, List.append_nil, hfirst l hle]
  · have hlen : (l.take n).length = n := List.length_take_of_le hle
    conv_lhs => rw [← List.take_append_drop n l]
    rw [lane_append, hfirst _ hlen.le, hlen, List.getElem?_take_of_lt hj,
      lane_congr (show (0 + n) % n = 0 % n by rw [Nat.zero_add, Nat.mod_self, Nat.zero_mod])]

/-- Element `k` of a lane. -/
lemma getElem?_lane (hj : j < n) (k : ℕ) (l : List α) : (lane n j 0 l)[k]? = l[k * n + j]? := by
  induction k generalizing l with
  | zero =>
    rw [lane_eq_cons hj, Nat.zero_mul, Nat.zero_add]
    cases hx : l[j]? with
    | none =>
      have hle : l.length ≤ n := (List.getElem?_eq_none_iff.mp hx).trans hj.le
      rw [List.drop_eq_nil_of_le hle]
      rfl
    | some x => rfl
  | succ k ih =>
    have hsum : (k + 1) * n + j = n + (k * n + j) := by
      rw [Nat.succ_mul]
      omega
    have hrest : (lane n j 0 (l.drop n))[k]? = l[n + (k * n + j)]? := by rw [ih, List.getElem?_drop]
    rw [lane_eq_cons hj, hsum, ← hrest]
    cases hx : l[j]? with
    | none =>
      have hle : l.length ≤ n := (List.getElem?_eq_none_iff.mp hx).trans hj.le
      rw [List.drop_eq_nil_of_le hle]
      rfl
    | some x => exact List.getElem?_cons_succ

/-- A lane with more than one element belongs to a list that is longer than there are lanes. -/
lemma lt_length_of_lane (hj : j < n) (h : 1 < (lane n j o l).length) : n < l.length := by
  by_contra hle
  obtain ⟨i, hi, rfl⟩ := exists_lane o hj
  rw [lane_eq_getElem? hi (by omega)] at h
  cases hget : l[i]? with
  | none => simp [hget] at h
  | some x => simp [hget] at h

/-! ## Vectors from the first lanes

Vectors may be taken from the lanes, each from as many of the first lanes as it is long. -/

section Reading

variable {vs : List (List α)} {v xs ys : List α}

/-- How many of the vectors have an element of lane `i`. -/
def reads (vs : List (List α)) (i : ℕ) : ℕ := vs.countP fun v => decide (i < v.length)

lemma reads_concat (vs : List (List α)) (v : List α) (i : ℕ) :
    reads (vs ++ [v]) i = reads vs i + if i < v.length then 1 else 0 := by
  rw [reads, List.countP_append, List.countP_singleton]
  simp only [decide_eq_true_eq]
  rfl

/-- A lane that all vectors have an element of. -/
lemma reads_eq_length {i : ℕ} (h : ∀ v ∈ vs, i < v.length) : reads vs i = vs.length :=
  List.countP_eq_length.mpr fun v hv => decide_eq_true (h v hv)

/-- The vectors are taken from the `n` lanes of the list `xs`: each has the next elements of the first lanes. -/
def ReadFrom (n : ℕ) (xs : List α) (vs : List (List α)) : Prop :=
  ∀ us v ws, vs = us ++ v :: ws → v.length ≤ n ∧ ∀ i x, v[i]? = some x → xs[reads us i * n + i]? = some x

lemma readFrom_nil : ReadFrom n xs [] := by
  intro us v ws h
  simp at h

/-- The list may grow. -/
lemma ReadFrom.append (h : ReadFrom n xs vs) (ys : List α) : ReadFrom n (xs ++ ys) vs := by
  intro us v ws heq
  obtain ⟨hlen, hv⟩ := h us v ws heq
  refine ⟨hlen, fun i x hx => ?_⟩
  have hget := hv i x hx
  rw [List.getElem?_append_left (List.getElem?_eq_some_iff.mp hget).1, hget]

/-- One more vector. -/
lemma readFrom_concat : ReadFrom n xs (vs ++ [v]) ↔
    ReadFrom n xs vs ∧ v.length ≤ n ∧ ∀ i x, v[i]? = some x → xs[reads vs i * n + i]? = some x := by
  constructor
  · intro h
    refine ⟨fun us w ws heq => h us w (ws ++ [v]) ?_, h vs v [] rfl⟩
    rw [heq, List.append_assoc, List.cons_append]
  · rintro ⟨h, hv⟩ us w ws heq
    rcases List.eq_nil_or_concat ws with rfl | ⟨ws, u, rfl⟩
    · obtain ⟨rfl, hw⟩ := List.append_inj' heq rfl
      obtain rfl : v = w := List.head_eq_of_cons_eq hw
      exact hv
    · rw [List.concat_eq_append, ← List.cons_append, ← List.append_assoc] at heq
      obtain ⟨heq, -⟩ := List.append_inj' heq rfl
      exact h us w ws heq

/-- The beginning of a list and what comes next there. -/
lemma prefix_append_of_getElem? (h : ys <+: xs) (hv : ∀ i x, v[i]? = some x → xs[ys.length + i]? = some x) :
    ys ++ v <+: xs := by
  refine List.prefix_iff_getElem?.mpr fun i hi => ?_
  rcases Nat.lt_or_ge i ys.length with hlt | hge
  · rw [List.getElem_append_left hlt]
    exact List.prefix_iff_getElem?.mp h i hlt
  · rw [List.getElem_append_right hge]
    have hget := hv (i - ys.length) _ (List.getElem?_eq_getElem (by simp at hi; omega))
    rwa [Nat.add_sub_of_le hge] at hget

/-- The length of some vectors of `n` elements each. -/
lemma length_flatten_of_full (h : ∀ v ∈ vs, v.length = n) : vs.flatten.length = vs.length * n := by
  rw [List.length_flatten, List.map_congr_left h, List.map_const', List.sum_replicate_nat]

/-- **Vectors give the list in order** if all but the last have an element of each lane. -/
theorem ReadFrom.flatten_prefix (h : ReadFrom n xs vs) (hfull : ∀ v ∈ vs.dropLast, v.length = n) : vs.flatten <+: xs := by
  induction vs using List.reverseRecOn with
  | nil => exact List.nil_prefix
  | append_singleton vs v ih =>
    obtain ⟨hvs, hlen, hv⟩ := readFrom_concat.mp h
    rw [List.dropLast_concat] at hfull
    have hstart := ih hvs fun u hu => hfull u (List.dropLast_subset _ hu)
    rw [List.flatten_append, List.flatten_singleton]
    refine prefix_append_of_getElem? hstart fun i x hx => ?_
    have hi : i < n := by
      have := (List.getElem?_eq_some_iff.mp hx).1
      omega
    have hreads : reads vs i = vs.length := reads_eq_length fun u hu => by rwa [hfull u hu]
    rw [length_flatten_of_full hfull, ← hreads]
    exact hv i x hx

/-- **Only then**, if the elements of the list are different and none of the vectors is empty. -/
theorem ReadFrom.full_of_prefix (h : ReadFrom n xs vs) (hne : ∀ v ∈ vs, v ≠ []) (hnd : xs.Nodup)
    (hstart : vs.flatten <+: xs) : ∀ v ∈ vs.dropLast, v.length = n := by
  induction vs using List.reverseRecOn with
  | nil => simp
  | append_singleton vs w ih =>
    obtain ⟨hvs, -, hw⟩ := readFrom_concat.mp h
    have hbefore : vs.flatten <+: (vs ++ [w]).flatten := by
      rw [List.flatten_append]
      exact List.prefix_append _ _
    have hfull := ih hvs (fun v hv => hne v (List.mem_append_left _ hv)) (hbefore.trans hstart)
    rw [List.dropLast_concat]
    rcases List.eq_nil_or_concat vs with rfl | ⟨us, v, rfl⟩
    · simp
    rw [List.concat_eq_append] at *
    rw [List.dropLast_concat] at hfull
    obtain ⟨-, hlen, -⟩ := readFrom_concat.mp hvs
    have hv : 0 < v.length := List.length_pos_iff.mpr (hne v (by simp))
    obtain ⟨x, ws, rfl⟩ := List.exists_cons_of_ne_nil (hne w (by simp))
    -- the first element of the last vector is the next of lane 0, but it comes after those of the vector before it
    have hlane : xs[(us.length + 1) * n + 0]? = some x := by
      have hreads : reads (us ++ [v]) 0 = us.length + 1 := by
        rw [reads_concat, if_pos hv, reads_eq_length fun u hu => by rw [hfull u hu]; omega]
      rw [← hreads]
      exact hw 0 x rfl
    have hplace : xs[us.length * n + v.length]? = some x := by
      have hbefore : (us ++ [v]).flatten.length = us.length * n + v.length := by
        rw [List.flatten_append, List.length_append, length_flatten_of_full hfull, List.flatten_singleton]
      obtain ⟨ys, hys⟩ := hstart
      rw [← hys, List.flatten_append, List.append_assoc, ← hbefore, List.getElem?_append_right (Nat.le_refl _), Nat.sub_self]
      rfl
    have heq : (us.length + 1) * n = us.length * n + v.length := by
      have hlt := (List.getElem?_eq_some_iff.mp hlane).1
      exact (List.getElem?_inj hlt hnd).mp (hlane.trans hplace.symm)
    rw [Nat.succ_mul] at heq
    intro u hu
    rcases List.mem_append.mp hu with hu | hu
    · exact hfull u hu
    · rw [List.mem_singleton.mp hu]
      omega

end Reading

end Rules
