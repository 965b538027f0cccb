import Mathlib.Data.List.Basic
import Mathlib.Data.Nat.ModEq
import Mathlib.Tactic.Common

set_option relaxedAutoImplicit false
set_option autoImplicit false

/-!
# Taking turns

The elements of a list are numbered, and every number belongs to someone whose turn it is. In rounds of `Q` numbers, with
`M` to a turn, it is the turn of `t % Q / M`; the last turn of a round is cut short if `M` does not divide `Q`.

## Main definitions

* `Rules.turn` — whose turn it is.
* `Rules.share` — the elements of one.
* `Rules.InTurns` — a list that takes its elements from several lists in turn.

## Main results

* `Rules.share_append` — one list after another.
* `Rules.turn_div` — longer turns.
* `Rules.turn_next`, `Rules.turn_next_of_round` — the next number.
* `Rules.getElem?_share`, `Rules.inTurns_share` — the elements of one, in rounds.
-/

namespace Rules

/-- Whose turn it is for the number `t`, in rounds of `Q` numbers with `M` to a turn. -/
def turn (Q M t : ℕ) : ℕ := t % Q / M

/-! ## The numbers of a turn -/

section Turn

variable {Q M : ℕ}

/-- Longer turns hold several. -/
lemma turn_div (Q M b t : ℕ) : turn Q M t / b = turn Q (M * b) t := Nat.div_div_eq_div_mul _ _ _

/-- If there is only one turn in a round, it is that of 0. -/
lemma turn_eq_zero (hQ : 0 < Q) (hM : Q ≤ M) (t : ℕ) : turn Q M t = 0 :=
  Nat.div_eq_of_lt ((Nat.mod_lt t hQ).trans_le hM)

/-- A number is one of its turn. -/
lemma turn_add_mod (Q M t : ℕ) : M * turn Q M t + t % Q % M = t % Q := Nat.div_add_mod _ _

/-- The next number of a round, or the first of the next. -/
lemma succ_mod (hQ : 0 < Q) (t : ℕ) : (t + 1) % Q = if t % Q + 1 = Q then 0 else t % Q + 1 := by
  have hlt := Nat.mod_lt t hQ
  rw [← Nat.mod_add_mod]
  split
  · rename_i h
    rw [h, Nat.mod_self]
  · exact Nat.mod_eq_of_lt (by omega)

/-- After the last number of a round it is the first turn. -/
lemma turn_succ_of_round {t : ℕ} (hQ : 0 < Q) (h : t % Q + 1 = Q) : turn Q M (t + 1) = 0 ∧ (t + 1) % Q % M = 0 := by
  rw [turn, succ_mod hQ, if_pos h, Nat.zero_div, Nat.zero_mod]
  exact ⟨rfl, rfl⟩

/-- After the last number of a turn it is the next turn. -/
lemma turn_succ_of_turn {t : ℕ} (hQ : 0 < Q) (hM : 0 < M) (h : t % Q + 1 ≠ Q) (h' : t % Q % M + 1 = M) :
    turn Q M (t + 1) = turn Q M t + 1 ∧ (t + 1) % Q % M = 0 := by
  have hnum := turn_add_mod Q M t
  have hsum : t % Q + 1 = M * (turn Q M t + 1) := by
    rw [Nat.mul_succ]
    omega
  rw [turn, succ_mod hQ, if_neg h, hsum, Nat.mul_div_cancel_left _ hM, Nat.mul_mod_right]
  exact ⟨rfl, rfl⟩

/-- After another number it is the same turn. -/
lemma turn_succ {t : ℕ} (hQ : 0 < Q) (hM : 0 < M) (h : t % Q + 1 ≠ Q) (h' : t % Q % M + 1 ≠ M) :
    turn Q M (t + 1) = turn Q M t ∧ (t + 1) % Q % M = t % Q % M + 1 := by
  have hnum := turn_add_mod Q M t
  have hlt := Nat.mod_lt (t % Q) hM
  have hsum : t % Q + 1 = (t % Q % M + 1) + M * turn Q M t := by omega
  rw [turn, succ_mod hQ, if_neg h, hsum, Nat.add_mul_div_left _ _ hM, Nat.add_mul_mod_self_left,
    Nat.div_eq_of_lt (by omega), Nat.zero_add, Nat.mod_eq_of_lt (by omega : t % Q % M + 1 < M)]
  exact ⟨rfl, rfl⟩

/-- A turn that is not the last of its round has all its numbers in the round. -/
lemma succ_ne_of_turn {t : ℕ} (hM : 0 < M) (h : M * (turn Q M t + 1) < Q) : t % Q + 1 ≠ Q := by
  have hnum := turn_add_mod Q M t
  have hlt := Nat.mod_lt (t % Q) hM
  rw [Nat.mul_succ] at h
  omega

/-- The last turn has the numbers that are left of the round. -/
lemma last_turn (Q M t : ℕ) : t % Q + 1 = Q ↔ t % Q % M + 1 = Q - M * turn Q M t := by
  have hnum := turn_add_mod Q M t
  omega

/-- **The next number**: after the last number of a turn it is the next turn, or the first one of the next round. -/
lemma turn_next (hQ : 0 < Q) (hM : 0 < M) (t : ℕ) : (turn Q M (t + 1), (t + 1) % Q % M) =
    if t % Q % M + 1 = min M (Q - M * turn Q M t) then (if Q ≤ M * (turn Q M t + 1) then 0 else turn Q M t + 1, 0)
    else (turn Q M t, t % Q % M + 1) := by
  have hlast := last_turn Q M t
  have hlt := Nat.mod_lt (t % Q) hM
  have hnum := turn_add_mod Q M t
  have hround := Nat.mod_lt t hQ
  have hmul : M * (turn Q M t + 1) = M * turn Q M t + M := Nat.mul_succ _ _
  split
  · rename_i hmin
    split
    · obtain ⟨hturn, hmod⟩ := turn_succ_of_round (M := M) hQ (hlast.mpr (by omega))
      rw [hturn, hmod]
    · rename_i hmore
      obtain ⟨hturn, hmod⟩ := turn_succ_of_turn hQ hM (succ_ne_of_turn hM (Nat.lt_of_not_le hmore)) (by omega)
      rw [hturn, hmod]
  · obtain ⟨hturn, hmod⟩ := turn_succ (t := t) hQ hM (by omega) (by omega)
    rw [hturn, hmod]

end Turn

/-! ## Shares -/

variable {α : Type*} {slot : ℕ → ℕ} {i o : ℕ} {l l' : List α}

/-- The elements of a list that belong to `i`, if the first has the number `o`. -/
def share (slot : ℕ → ℕ) (i : ℕ) : ℕ → List α → List α
  | _, [] => []
  | o, x :: l => if slot o = i then x :: share slot i (o + 1) l else share slot i (o + 1) l

@[simp] lemma share_nil : share slot i o ([] : List α) = [] := rfl

lemma share_cons {x : α} :
    share slot i o (x :: l) = if slot o = i then x :: share slot i (o + 1) l else share slot i (o + 1) l := rfl

/-- One list after another. -/
lemma share_append (slot : ℕ → ℕ) (i o : ℕ) (l l' : List α) :
    share slot i o (l ++ l') = share slot i o l ++ share slot i (o + l.length) l' := by
  induction l generalizing o with
  | nil => rfl
  | cons x l ih =>
    have hsum : o + (x :: l).length = o + 1 + l.length := by
      rw [List.length_cons]
      omega
    rw [List.cons_append, hsum, share_cons, share_cons, ih]
    split <;> rfl

/-- The first elements of a list, and the others. -/
lemma share_take_drop (n o : ℕ) (l : List α) :
    share slot i o l = share slot i o (l.take n) ++ share slot i (o + n) (l.drop n) := by
  rcases Nat.le_total n l.length with hle | hle
  · conv_lhs => rw [← List.take_append_drop n l]
    rw [share_append, List.length_take_of_le hle]
  · rw [List.take_of_length_le hle, List.drop_eq_nil_of_le hle, share_nil, List.append_nil]

/-- One more element. -/
lemma share_concat (slot : ℕ → ℕ) (i o : ℕ) (l : List α) (x : α) :
    share slot i o (l ++ [x]) = share slot i o l ++ if slot (o + l.length) = i then [x] else [] := by
  rw [share_append, share_cons]
  rfl

/-- The shares of the beginning of a list. -/
lemma share_prefix_of_prefix (slot : ℕ → ℕ) (i o : ℕ) (h : l <+: l') : share slot i o l <+: share slot i o l' := by
  obtain ⟨m, rfl⟩ := h
  rw [share_append]
  exact List.prefix_append _ _

/-- All elements, if they all belong to `i`. -/
lemma share_eq_self (h : ∀ j, j < l.length → slot (o + j) = i) : share slot i o l = l := by
  induction l generalizing o with
  | nil => rfl
  | cons x l ih =>
    have hrest : share slot i (o + 1) l = l := ih fun j hj => by
      rw [Nat.add_assoc, Nat.add_comm 1]
      exact h (j + 1) (Nat.succ_lt_succ hj)
    have hfirst : slot o = i := h 0 (Nat.succ_pos _)
    rw [share_cons, if_pos hfirst, hrest]

/-- No elements, if none belongs to `i`. -/
lemma share_eq_nil (h : ∀ j, j < l.length → slot (o + j) ≠ i) : share slot i o l = [] := by
  induction l generalizing o with
  | nil => rfl
  | cons x l ih =>
    have hrest : share slot i (o + 1) l = [] := ih fun j hj => by
      rw [Nat.add_assoc, Nat.add_comm 1]
      exact h (j + 1) (Nat.succ_lt_succ hj)
    have hfirst : slot o ≠ i := h 0 (Nat.succ_pos _)
    rw [share_cons, if_neg hfirst, hrest]

/-- The first element of those whose turn it is. -/
lemma share_head (slot : ℕ → ℕ) (o : ℕ) (h : share slot (slot o) o l ≠ []) : ∃ x l', l = x :: l' ∧
    share slot (slot o) o l = x :: share slot (slot o) (o + 1) l' := by
  cases l with
  | nil => exact absurd rfl h
  | cons x l' => exact ⟨x, l', rfl, by rw [share_cons, if_pos rfl]⟩

/-! ## Rounds -/

section Rounds

variable {k c : ℕ}

/-- Whose turn it is in a round. -/
lemma turn_round (q : ℕ) {j : ℕ} (hj : j < k * c) : turn (k * c) c (q * (k * c) + j) = j / c := by
  rw [turn, Nat.mul_comm q, Nat.mul_add_mod, Nat.mod_eq_of_lt hj]

/-- There are `k` turns of `c` numbers in a round. -/
lemma turn_lt (hk : 0 < k) (hc : 0 < c) (t : ℕ) : turn (k * c) c t < k := Nat.div_lt_of_lt_mul (by
  rw [Nat.mul_comm c]
  exact Nat.mod_lt t (Nat.mul_pos hk hc))

/-- The next number in rounds of `k` turns of `c` numbers. -/
lemma turn_next_of_round (hk : 0 < k) (hc : 0 < c) (t : ℕ) : (turn (k * c) c (t + 1), (t + 1) % (k * c) % c) =
    if t % (k * c) % c + 1 = c then (if turn (k * c) c t + 1 = k then 0 else turn (k * c) c t + 1, 0)
    else (turn (k * c) c t, t % (k * c) % c + 1) := by
  have hlt := turn_lt hk hc t
  have hmore : c * turn (k * c) c t + c ≤ k * c := by
    rw [← Nat.mul_succ, Nat.mul_comm]
    exact Nat.mul_le_mul_right c hlt
  have hlast : k * c ≤ c * (turn (k * c) c t + 1) ↔ turn (k * c) c t + 1 = k := by
    rw [Nat.mul_comm c, Nat.mul_le_mul_right_iff hc]
    omega
  rw [turn_next (Nat.mul_pos hk hc) hc, Nat.min_eq_left (by omega)]
  simp only [hlast]

/-- The share of one in a round of `k` turns of `c` numbers. -/
lemma share_round (hc : 0 < c) (hi : i < k) (q : ℕ) (l : List α) :
    share (turn (k * c) c) i (q * (k * c)) l =
      (l.drop (i * c)).take c ++ share (turn (k * c) c) i ((q + 1) * (k * c)) (l.drop (k * c)) := by
  have hround : (i + 1) * c ≤ k * c := Nat.mul_le_mul_right c hi
  rw [Nat.succ_mul] at hround
  obtain ⟨e, he⟩ := Nat.exists_eq_add_of_le hround
  -- the turns before
  have hbefore : share (turn (k * c) c) i (q * (k * c)) (l.take (i * c)) = [] := by
    refine share_eq_nil fun j hj => ?_
    have hj' : j < i * c := hj.trans_le (List.length_take_le _ _)
    rw [turn_round q (by omega)]
    exact ((Nat.div_lt_iff_lt_mul hc).mpr hj').ne
  -- the turn
  have hturn : share (turn (k * c) c) i (q * (k * c) + i * c) ((l.drop (i * c)).take c) = (l.drop (i * c)).take c := by
    refine share_eq_self fun j hj => ?_
    have hj' : j < c := hj.trans_le (List.length_take_le _ _)
    rw [Nat.add_assoc (q * (k * c)), turn_round q (by omega), Nat.mul_comm i, Nat.mul_add_div hc, Nat.div_eq_of_lt hj',
      Nat.add_zero]
  -- the turns after it
  have hafter : share (turn (k * c) c) i (q * (k * c) + i * c + c) ((l.drop (i * c + c)).take e) = [] := by
    refine share_eq_nil fun j hj => ?_
    have hj' : j < e := hj.trans_le (List.length_take_le _ _)
    rw [Nat.add_assoc (q * (k * c) + i * c), Nat.add_assoc (q * (k * c)), turn_round q (by omega)]
    have hle : i + 1 ≤ (i * c + (c + j)) / c := by
      rw [Nat.le_div_iff_mul_le hc, Nat.succ_mul]
      omega
    omega
  have hnext : q * (k * c) + i * c + c + e = (q + 1) * (k * c) := by
    rw [Nat.succ_mul]
    omega
  rw [share_take_drop (i * c) _ l, hbefore, share_take_drop c _ (l.drop (i * c)), hturn, List.drop_drop,
    share_take_drop e _ (l.drop (i * c + c)), hafter, List.drop_drop, hnext, ← he, List.nil_append, List.nil_append]

/-- **The elements of one, in rounds**: element `r` of the turn of `i` in round `q`. -/
lemma getElem?_share (hc : 0 < c) (hi : i < k) (p q : ℕ) {r : ℕ} (hr : r < c) (l : List α) :
    (share (turn (k * c) c) i (p * (k * c)) l)[q * c + r]? = l[q * (k * c) + i * c + r]? := by
  have hround : (i + 1) * c ≤ k * c := Nat.mul_le_mul_right c hi
  rw [Nat.succ_mul] at hround
  induction q generalizing p l with
  | zero =>
    rw [share_round hc hi, Nat.zero_mul, Nat.zero_mul, Nat.zero_add, Nat.zero_add]
    rcases Nat.lt_or_ge r ((l.drop (i * c)).take c).length with hlt | hge
    · rw [List.getElem?_append_left hlt, List.getElem?_take_of_lt hr, List.getElem?_drop]
    · -- the list ends in this turn
      rw [List.length_take, List.length_drop] at hge
      rw [List.drop_eq_nil_of_le (by omega : l.length ≤ k * c), share_nil, List.append_nil,
        List.getElem?_eq_none (by rw [List.length_take, List.length_drop]; omega), List.getElem?_eq_none (by omega)]
  | succ q ih =>
    rw [share_round hc hi]
    rcases Nat.lt_or_ge (i * c + c) l.length with hlt | hge
    · have hlen : ((l.drop (i * c)).take c).length = c := by
        rw [List.length_take, List.length_drop]
        omega
      rw [List.getElem?_append_right (by rw [hlen, Nat.succ_mul]; omega), hlen,
        (by rw [Nat.succ_mul]; omega : (q + 1) * c + r - c = q * c + r), ih, List.getElem?_drop,
        (by rw [Nat.succ_mul]; omega : k * c + (q * (k * c) + i * c + r) = (q + 1) * (k * c) + i * c + r)]
    · -- the list ends in an earlier round
      rw [List.drop_eq_nil_of_le (by omega : l.length ≤ k * c), share_nil, List.append_nil,
        List.getElem?_eq_none (by rw [List.length_take, List.length_drop, Nat.succ_mul]; omega),
        List.getElem?_eq_none (by rw [Nat.succ_mul]; omega)]

/-- `narrow` takes `c` elements from each of the `k` lists in turn, as long as there are any: element `r` of turn `q` of list
`i` has the number `q * (k * c) + i * c + r`. -/
def InTurns (k c : ℕ) (wide : Fin k → List α) (narrow : List α) : Prop :=
  ∀ (i : Fin k) (q r : ℕ), r < c → (wide i)[q * c + r]? = narrow[q * (k * c) + i * c + r]?

/-- The shares of the elements of a list. -/
lemma inTurns_share (hc : 0 < c) (k : ℕ) (l : List α) :
    InTurns k c (fun i => share (turn (k * c) c) i 0 l) l := by
  intro i q r hr
  have hzero : 0 * (k * c) = 0 := Nat.zero_mul _
  rw [← getElem?_share hc i.isLt 0 q hr l, hzero]

end Rounds

end Rules
