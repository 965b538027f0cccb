import Mathlib.Data.Set.Function
import Xbsv.Dma.Burst
import Xbsv.Dma.Isolation

set_option relaxedAutoImplicit false
set_option autoImplicit false

/-!
# Where the bytes of objects are

The bytes of an object lie in the entries of its scatter-gather list, one entry after the other. When the entries of all
objects have no byte in common, different bytes of objects are at different addresses; and the unit, once all objects have
been registered, computes these addresses.

## Main definitions

* `Xbsv.SGList.physical` — the address of a byte of an object.
* `Xbsv.SGList.Within` — some bytes that lie in one entry, and so at consecutive addresses.
* `Xbsv.SGList.place` — the address of a byte of one of several objects.

## Main results

* `Xbsv.SGList.place_injOn` — different bytes are at different addresses.
* `Xbsv.SGList.translate_references` — the translation of a registered object.
-/

namespace Xbsv.SGList

/-! ## One object -/

/-- The address of the byte at an offset. -/
def physical : List SgEntry → ℕ → ℕ
  | [], _ => 0
  | e :: es, off => if off < e.len.toNat then e.addr.toNat + off else physical es (off - e.len.toNat)

/-- The `n` bytes from an offset on lie in one entry. -/
def Within : List SgEntry → ℕ → ℕ → Prop
  | [], _, _ => False
  | e :: es, off, n => off + n ≤ e.len.toNat ∨ e.len.toNat ≤ off ∧ Within es (off - e.len.toNat) n

instance decidableWithin : (es : List SgEntry) → (off n : ℕ) → Decidable (Within es off n)
  | [], _, _ => instDecidableFalse
  | e :: es, off, n =>
    have := decidableWithin es (off - e.len.toNat) n
    inferInstanceAs (Decidable (off + n ≤ e.len.toNat ∨ e.len.toNat ≤ off ∧ Within es (off - e.len.toNat) n))

/-- Two entries without a common byte. -/
def Apart (a b : SgEntry) : Prop :=
  a.addr.toNat + a.len.toNat ≤ b.addr.toNat ∨ b.addr.toNat + b.len.toNat ≤ a.addr.toNat

instance (a b : SgEntry) : Decidable (Apart a b) := inferInstanceAs (Decidable (_ ∨ _))

variable {es pre post : List SgEntry} {e : SgEntry} {off n : ℕ}

lemma totalLen_cons (e : SgEntry) (es : List SgEntry) : totalLen (e :: es) = e.len.toNat + totalLen es := by
  rw [totalLen, List.map_cons, List.sum_cons, totalLen]

/-- The address in terms of the entry that the byte lies in. -/
lemma physical_eq (hes : es = pre ++ e :: post) (hlo : totalLen pre ≤ off) (hhi : off < totalLen pre + e.len.toNat) :
    physical es off = e.addr.toNat + (off - totalLen pre) := by
  subst hes
  induction pre generalizing off with
  | nil =>
    have hzero : totalLen ([] : List SgEntry) = 0 := rfl
    rw [hzero] at hhi ⊢
    rw [List.nil_append, physical, if_pos (by omega), Nat.sub_zero]
  | cons d pre ih =>
    rw [totalLen_cons] at hlo hhi ⊢
    rw [List.cons_append, physical, if_neg (by omega), ih (by omega) (by omega)]
    omega

/-- A byte lies in one of the entries. -/
lemma exists_mem_physical (h : off < totalLen es) :
    ∃ e ∈ es, e.addr.toNat ≤ physical es off ∧ physical es off < e.addr.toNat + e.len.toNat := by
  obtain ⟨pre, e, post, rfl, hlo, hhi⟩ := exists_entry es off h
  have heq : physical (pre ++ e :: post) off = e.addr.toNat + (off - totalLen pre) := physical_eq rfl hlo hhi
  exact ⟨e, by simp, by omega, by omega⟩

/-- Bytes that lie in one entry are at consecutive addresses. -/
lemma Within.physical_add (h : Within es off n) {k : ℕ} (hk : k < n) :
    physical es (off + k) = physical es off + k ∧ off + k < totalLen es := by
  induction es generalizing off with
  | nil => exact absurd h id
  | cons e es ih =>
    rw [totalLen_cons]
    rcases h with h | ⟨hle, h⟩
    · rw [physical, physical, if_pos (by omega), if_pos (by omega)]
      omega
    · have hsub : off + k - e.len.toNat = off - e.len.toNat + k := by omega
      obtain ⟨heq, hlt⟩ := ih h
      rw [physical, physical, if_neg (by omega), if_neg (by omega), hsub]
      exact ⟨heq, by omega⟩

/-- Different bytes of an object are at different addresses.

**Proof sketch.** Induction on the entries. Two bytes of the first entry have addresses in the order of their offsets; a
byte of the first entry and one of another entry are in entries that are apart. -/
lemma physical_injOn (h : es.Pairwise Apart) : Set.InjOn (physical es) (Set.Iio (totalLen es)) := by
  induction es with
  | nil =>
    intro x hx
    exact absurd hx (Nat.not_lt_zero x)
  | cons e es ih =>
    obtain ⟨hapart, htail⟩ := List.pairwise_cons.mp h
    -- a byte of the first entry is not at the address of one of the others
    have hne {x y : ℕ} (hx : x < e.len.toNat) (hy : y < totalLen es) : e.addr.toNat + x ≠ physical es y := by
      obtain ⟨d, hd, hlo, hhi⟩ := exists_mem_physical hy
      rcases hapart d hd with hd | hd <;> omega
    intro x hx y hy hxy
    rw [Set.mem_Iio, totalLen_cons] at hx hy
    rw [physical, physical] at hxy
    by_cases hxe : x < e.len.toNat <;> by_cases hye : y < e.len.toNat
    · rw [if_pos hxe, if_pos hye] at hxy
      omega
    · rw [if_pos hxe, if_neg hye] at hxy
      exact absurd hxy (hne hxe (by omega))
    · rw [if_neg hxe, if_pos hye] at hxy
      exact absurd hxy.symm (hne hye (by omega))
    · rw [if_neg hxe, if_neg hye] at hxy
      have heq := ih htail (Set.mem_Iio.mpr (by omega)) (Set.mem_Iio.mpr (by omega)) hxy
      omega

/-! ## Several objects -/

/-- The address of a byte, given by the number of its object and its offset. -/
def place (regs : List (List SgEntry)) (x : ℕ × ℕ) : ℕ := physical (regs.getD x.1 []) x.2

/-- The bytes that there are. -/
def bytesOf (regs : List (List SgEntry)) : Set (ℕ × ℕ) := {x | x.2 < totalLen (regs.getD x.1 [])}

/-- **Different bytes of objects are at different addresses.** -/
theorem place_injOn {regs : List (List SgEntry)} (h : regs.flatten.Pairwise Apart) :
    Set.InjOn (place regs) (bytesOf regs) := by
  induction regs with
  | nil =>
    rintro ⟨i, x⟩ hx
    exact absurd hx (Nat.not_lt_zero x)
  | cons es regs ih =>
    rw [List.flatten_cons, List.pairwise_append] at h
    obtain ⟨hhead, htail, hapart⟩ := h
    -- a byte of the first object is not at the address of one of another object
    have hne {x j y : ℕ} (hx : x < totalLen es) (hy : y < totalLen (regs.getD j [])) :
        physical es x ≠ physical (regs.getD j []) y := by
      obtain ⟨d, hd, hdlo, hdhi⟩ := exists_mem_physical hx
      obtain ⟨e, he, helo, hehi⟩ := exists_mem_physical hy
      have hmem : e ∈ regs.flatten := by
        rw [List.getD_eq_getElem?_getD] at he
        cases hj : regs[j]? with
        | none =>
          rw [hj] at he
          exact absurd he List.not_mem_nil
        | some l =>
          rw [hj] at he
          exact List.mem_flatten_of_mem (List.mem_of_getElem? hj) he
      rcases hapart d hd e hmem with hde | hde <;> omega
    rintro ⟨i, x⟩ hx ⟨j, y⟩ hy hxy
    cases i with
    | zero =>
      cases j with
      | zero => exact Prod.ext rfl (physical_injOn hhead hx hy hxy)
      | succ j => exact absurd hxy (hne hx hy)
    | succ i =>
      cases j with
      | zero => exact absurd hxy.symm (hne hy hx)
      | succ j =>
        have hx' : (i, x) ∈ bytesOf regs := hx
        have hy' : (j, y) ∈ bytesOf regs := hy
        have heq : (i, x) = (j, y) := ih htail hx' hy' hxy
        rw [Prod.mk.injEq] at heq ⊢
        exact ⟨congrArg Nat.succ heq.1, heq.2⟩

/-! ## The unit after the registrations -/

section Registered

variable {addrWidth : ℕ} {regs : List (List SgEntry)}

lemma references_append (g : ℕ) (later : List (List SgEntry)) (pre : List (List SgEntry)) :
    references (BitVec.ofNat 32 g) (pre ++ later) =
      references (BitVec.ofNat 32 g) pre ++ references (BitVec.ofNat 32 (g + pre.length)) later := by
  induction pre generalizing g with
  | nil => rfl
  | cons es pre ih =>
    have hnext : (reference (BitVec.ofNat 32 g) es).2 = BitVec.ofNat 32 (g + 1) := by
      rw [reference, BitVec.ofNat_add]
      rfl
    rw [List.cons_append, references, references, hnext, ih, List.append_assoc, List.length_cons, Nat.add_right_comm,
      Nat.add_assoc]

/-- **The translation of a registered object**, when at most 32 objects have been registered: the address of the byte.

**Proof sketch.** It is that after the object's own registration, and the later ones do not change it. -/
theorem translate_references (undef : Page → Offset → BitVec 40) (haw : addrWidth ≤ 40) (hlen : regs.length ≤ 32)
    (hw : ∀ es ∈ regs, SgWellFormed addrWidth es) (t : Tables) {p : BitVec 32} {off : BitVec 40}
    (hoff : (p.toNat, off.toNat) ∈ bytesOf regs) :
    (translate undef (t.calls (references 0 regs)) ⟨p.setWidth 5, off⟩ : BitVec addrWidth).toNat =
      place regs (p.toNat, off.toNat) := by
  change off.toNat < totalLen (regs.getD p.toNat []) at hoff
  obtain ⟨es, hes⟩ : ∃ es, regs[p.toNat]? = some es := by
    rw [List.getD_eq_getElem?_getD] at hoff
    cases hp : regs[p.toNat]? with
    | none =>
      rw [hp] at hoff
      exact absurd hoff (Nat.not_lt_zero _)
    | some es => exact ⟨es, rfl⟩
  have hget : regs.getD p.toNat [] = es := by rw [List.getD_eq_getElem?_getD, hes, Option.getD_some]
  rw [hget] at hoff
  obtain ⟨hlt, hget'⟩ := List.getElem?_eq_some_iff.mp hes
  -- the registrations before the object's own, and those after it
  have hsplit : regs = regs.take p.toNat ++ es :: regs.drop (p.toNat + 1) := by
    rw [← hget', ← List.drop_eq_getElem_cons hlt, List.take_append_drop]
  have hp : BitVec.ofNat 32 p.toNat = p := by rw [BitVec.ofNat_toNat, BitVec.setWidth_eq]
  set t₀ := t.calls (references 0 (regs.take p.toNat)) with ht₀
  have hcalls : t.calls (references 0 regs) =
      (t₀.calls (sendFdToPortal p es)).calls (references (BitVec.ofNat 32 (p.toNat + 1)) (regs.drop (p.toNat + 1))) := by
    have hnext : (reference p es).2 = BitVec.ofNat 32 (p.toNat + 1) := by
      rw [reference, BitVec.ofNat_add, hp]
      rfl
    have happend := references_append 0 (es :: regs.drop (p.toNat + 1)) (regs.take p.toNat)
    rw [← hsplit, List.length_take_of_le hlt.le, Nat.zero_add, hp, references, hnext] at happend
    rw [show (0 : BitVec 32) = BitVec.ofNat 32 0 from rfl, happend, calls_append, calls_append]
    rfl
  have hsame : SameTranslation addrWidth undef (t₀.calls (sendFdToPortal p es))
      ((t₀.calls (sendFdToPortal p es)).calls
        (references (BitVec.ofNat 32 (p.toNat + 1)) (regs.drop (p.toNat + 1)))) ⟨(BitVec.ofNat 32 p.toNat).setWidth 5, off⟩ := by
    refine sameTranslation_references undef _ _ _ (Nat.lt_succ_self _) fun k es' hk => ?_
    rw [List.getElem?_drop] at hk
    have hlength := (hw es' (List.mem_of_getElem? hk)).length_le
    have hindex := (List.getElem?_eq_some_iff.mp hk).1
    omega
  rw [hp] at hsame
  obtain ⟨pre, e, post, hentry, hlo, hhi⟩ := exists_entry es off.toNat hoff
  have htranslate := (translate_sendFdToPortal undef t₀ p haw (by omega) (hw es (List.mem_of_getElem? hes)) hentry hlo
    hhi).1
  rw [hcalls, hsame.translate, htranslate, place, hget, physical_eq hentry hlo hhi]

end Registered

end Xbsv.SGList
