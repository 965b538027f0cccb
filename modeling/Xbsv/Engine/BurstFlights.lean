import Mathlib.Data.List.Chain
import Xbsv.Engine.BurstFunnel
import Xbsv.Engine.Ledger

set_option relaxedAutoImplicit false
set_option autoImplicit false

/-!
# Bursts in flight

The state of a burst funnel against its past. The bursts asked for fall into three parts: those that have
been drained, those in flight, and those that wait for their first element. Names are given in turn, so
that those of the bursts in flight, of which there are at most four, are different; what is in the funnel
and in the block RAM under a name is then what is left of one burst, in order.

The length of a burst is the contents of the register of its input when `loadIdx` is called. It must not
change until the first element of the burst is drained, which is what `Settled` is about: a write to the
register of an input for which no burst is to be drained does no harm.

## Main definitions

* `Xbsv.BurstFunnel.Burst`, `Xbsv.BurstFunnel.Log` — a burst, and what went in and came out.
* `Xbsv.BurstFunnel.Carries` — the state agrees with the past.
* `Xbsv.BurstFunnel.Settled` — the length of the bursts of an input may change.

## Main results

* `Xbsv.BurstFunnel.Carries.loadIdx`, …, `Xbsv.BurstFunnel.Carries.deq` — one for each operation.
* `Xbsv.BurstFunnel.Carries.left_prefix_calls` — what came out.
-/

namespace Xbsv

open Rules

namespace BurstFunnel

/-- A burst: the elements of it that have been drained, and those that have entered and have not. -/
structure Burst (k w : ℕ) where
  idx : Fin k
  name : Fin 4
  len : ℕ
  sent : List (BitVec w)
  vals : List (BitVec w)

namespace Burst

variable {k w : ℕ} (b : Burst k w)

/-- The index and the name, as in the queues of the funnel. -/
def key : Fin k × Fin 4 := (b.idx, b.name)

/-- The call of `loadIdx` for the burst. -/
def call : Fin k × ℕ := (b.idx, b.len)

/-- The elements that have entered, with their input. -/
def entries : List (Fin k × BitVec w) := (b.sent ++ b.vals).map fun v => (b.idx, v)

/-- The elements that have been drained, with their input. -/
def exits : List (Fin k × BitVec w) := b.sent.map fun v => (b.idx, v)

/-- All elements have entered. -/
def Full : Prop := b.sent.length + b.vals.length = b.len

end Burst

/-- What went into a burst funnel and came out: the calls of `loadIdx` with the lengths of the bursts, and
the elements. -/
structure Log (k w : ℕ) where
  calls : List (Fin k × ℕ)
  entered : List (Fin k × BitVec w)
  left : List (Fin k × BitVec w)

variable {k w : ℕ}

/-- Elements with the mark of the last one, when `n` are to come. -/
def marked {α : Type} : ℕ → List α → List (α × Bool)
  | _, [] => []
  | n, v :: vs => (v, decide (n = 1)) :: marked (n - 1) vs

lemma marked_append {α : Type} (n : ℕ) (vs : List α) (v : α) :
    marked n (vs ++ [v]) = marked n vs ++ [(v, decide (n = vs.length + 1))] := by
  induction vs generalizing n with
  | nil => simp [marked]
  | cons u vs ih =>
    have hn : n - 1 = vs.length + 1 ↔ n = vs.length + 1 + 1 := by omega
    simp [marked, ih, hn]

@[simp] lemma length_marked {α : Type} (n : ℕ) (vs : List α) : (marked n vs).length = vs.length := by
  induction vs generalizing n with
  | nil => rfl
  | cons u vs ih => simp [marked, ih]

/-- `Labels is xs ys rest`: the marked elements `xs` get the labels `is`, a new one after each mark, which
makes `ys`; `rest` are the labels that are left. -/
inductive Labels {α ι : Type} : List ι → List (α × Bool) → List (ι × α) → List ι → Prop
  | nil (is : List ι) : Labels is [] [] is
  | more {i : ι} {is : List ι} {v : α} {xs : List (α × Bool)} {ys : List (ι × α)} {rest : List ι} :
      Labels (i :: is) xs ys rest → Labels (i :: is) ((v, false) :: xs) ((i, v) :: ys) rest
  | last {i : ι} {is : List ι} {v : α} {xs : List (α × Bool)} {ys : List (ι × α)} {rest : List ι} :
      Labels is xs ys rest → Labels (i :: is) ((v, true) :: xs) ((i, v) :: ys) rest

section Labels

variable {α ι : Type} {is rest : List ι} {xs : List (α × Bool)} {ys : List (ι × α)}

/-- A new label waits for its turn. -/
lemma Labels.append_label (h : Labels is xs ys rest) (j : ι) :
    Labels (is ++ [j]) xs ys (rest ++ [j]) := by
  induction h with
  | nil is => exact .nil _
  | more _ ih => exact .more ih
  | last _ ih => exact .last ih

/-- A new element gets the first label that is left. -/
lemma Labels.append_item {i : ι} (h : Labels is xs ys (i :: rest)) (v : α) (b : Bool) :
    Labels is (xs ++ [(v, b)]) (ys ++ [(i, v)]) (if b then rest else i :: rest) := by
  generalize hr : i :: rest = r at h
  induction h with
  | nil is =>
    subst hr
    cases b with
    | false => exact .more (.nil _)
    | true => exact .last (.nil _)
  | more _ ih => exact .more (ih hr)
  | last _ ih => exact .last (ih hr)

/-- The oldest element has the oldest label, which is used up if the element is marked. -/
lemma Labels.head {v : α} {b : Bool} (h : Labels is ((v, b) :: xs) ys rest) :
    ∃ i is' ys', is = i :: is' ∧ ys = (i, v) :: ys' ∧ Labels (if b then is' else is) xs ys' rest := by
  cases h with
  | more h => exact ⟨_, _, _, rfl, rfl, h⟩
  | last h => exact ⟨_, _, _, rfl, rfl, h⟩

/-- Without elements no label is used. -/
lemma Labels.of_nil (h : Labels is ([] : List (α × Bool)) ys rest) : is = rest ∧ ys = [] := by
  cases h
  exact ⟨rfl, rfl⟩

end Labels

/-- The counter of the input side: `cur` is the burst whose elements are entering, the last of those in
flight. -/
inductive Injecting : ℕ → List (Burst k w) → List (Fin k × Fin 4) → Prop
  | idle {F : List (Burst k w)} : (∀ b ∈ F, b.Full) → Injecting 0 F []
  | busy {F : List (Burst k w)} {b : Burst k w} {n : ℕ} : (∀ c ∈ F, c.Full) → 0 < n →
      b.sent.length + b.vals.length + n = b.len → Injecting n (F ++ [b]) [b.key]

/-- The counter of the output side: the first of the bursts in flight is being drained, and its index is
the label that is left for its next elements, or none is. -/
inductive Draining : ℕ → List (Burst k w) → List (Fin k) → Prop
  | idle {F : List (Burst k w)} : (∀ b ∈ F, b.sent = []) → Draining 0 F []
  | busy {F : List (Burst k w)} {b : Burst k w} {n : ℕ} : (∀ c ∈ F, c.sent = []) → 0 < n →
      b.sent.length + n = b.len → Draining n (b :: F) [b.idx]

/-- The streams of the funnel: the elements with the same name, which enter at input `home name`. -/
abbrev namePaths (k w : ℕ) (home : Fin 4 → ℕ) :
    Net.Paths Node (Fin 4 × (BitVec w × Bool)) (BitVec w × Bool) (Fin 4) :=
  funnelPaths k (bitsPerCycle k) Prod.fst Prod.snd home

/-- The elements in the funnel and in the block RAM are those of the bursts in flight that have entered and
have not been drained; those of one burst have its name, and entered at its input. -/
structure Transit (dataIn : Net (funnelCap k (bitsPerCycle k) 2) (Fin 4 × (BitVec w × Bool)))
    (F : List (Burst k w)) (queue : Fin 4 → List (BitVec w × Bool)) (home : Fin 4 → ℕ) : Prop where
  home_eq : ∀ b ∈ F, home b.name = b.idx
  traffic : ∀ b ∈ F, queue b.name ++
    dataIn.stream (namePaths k w home) b.name (stages k (bitsPerCycle k) + 1) =
      marked (b.len - b.sent.length) b.vals
  named : dataIn.Everywhere fun _ x => ∃ b ∈ F, b.name = x.1
  unnamed : ∀ ν, (∀ b ∈ F, b.name ≠ ν) → queue ν = []
  confined : dataIn.Confined (namePaths k w home)
  levels : dataIn.Everywhere fun n _ => n.1 ≤ stages k (bitsPerCycle k)

/-- What the record does not tell of a burst funnel. -/
structure Flights (k w : ℕ) where
  /-- The bursts that have been drained. -/
  past : List (Burst k w)
  /-- The bursts in flight. -/
  flying : List (Burst k w)
  /-- The bursts that wait for their first element. -/
  waiting : List (Burst k w)
  /-- The queues in the block RAM. -/
  queue : Fin 4 → List (BitVec w × Bool)
  /-- The input of the burst with a name. -/
  home : Fin 4 → ℕ
  /-- The answers of the block RAM, with their labels. -/
  answers : List (Fin k × BitVec w)

/-- The bursts whose first element has not been drained, given the counter of the output side. -/
def Flights.undrained (V : Flights k w) (drainCnt : BitVec 8) : List (Burst k w) :=
  (if drainCnt = 0 then V.flying else V.flying.tail) ++ V.waiting

/-- The state of a burst funnel agrees with its past. -/
structure Carries (L : Log k w) (s : BurstFunnel k w) (V : Flights k w) : Prop where
  calls : L.calls = (V.past ++ V.flying ++ V.waiting).map Burst.call
  entered : L.entered = (V.past ++ V.flying).flatMap Burst.entries
  left : L.left ++ (s.exitData.items ++ V.answers) = (V.past ++ V.flying).flatMap Burst.exits
  past : ∀ b ∈ V.past, b.sent.length = b.len ∧ b.vals = []
  waiting : ∀ b ∈ V.waiting, b.sent = [] ∧ b.vals = []
  len : ∀ b ∈ V.flying ++ V.waiting, 1 ≤ b.len ∧ b.len ≤ 16
  names : ((V.flying ++ V.waiting).map Burst.name ++ [s.nameGen]).IsChain fun a b => b = a + 1
  inFlight : s.inFlight.items = V.flying.map Burst.key
  loadIdxs : ∃ cur, s.loadIdxs.items = cur ++ V.waiting.map Burst.key ∧
    Injecting s.injCtrl.toNat V.flying cur
  drained : ∃ rest, Draining s.drainCnt.toNat V.flying rest ∧
    Labels s.drainRename.items s.complBuff.resp.items V.answers rest
  burstLen : ∀ b ∈ V.undrained s.drainCnt, (s.burstLen b.idx).toNat = b.len
  transit : Transit s.dataIn V.flying V.queue V.home
  compCnts : ∀ ν, s.compCnts ν = BitVec.ofNat 16 (V.queue ν).length
  holds : s.complBuff.Holds V.queue

/-! ## Names and counters -/

/-- Names that follow each other are different, as long as there are no more than four. -/
lemma nodup_of_isChain {l : List (Fin 4)} (h : l.IsChain fun a b => b = a + 1) (hl : l.length ≤ 4) :
    l.Nodup := by
  rcases l with _ | ⟨a, _ | ⟨b, _ | ⟨c, _ | ⟨d, _ | ⟨e, l⟩⟩⟩⟩⟩
  · simp
  · simp
  · simp only [List.isChain_cons_cons] at h
    obtain ⟨rfl, -⟩ := h
    revert a
    decide
  · simp only [List.isChain_cons_cons] at h
    obtain ⟨rfl, rfl, -⟩ := h
    revert a
    decide
  · simp only [List.isChain_cons_cons] at h
    obtain ⟨rfl, rfl, rfl, -⟩ := h
    revert a
    decide
  · simp only [List.length_cons] at hl
    omega

variable {F : List (Burst k w)} {b b' : Burst k w} {n : ℕ} {cur : List (Fin k × Fin 4)}
  {rest : List (Fin k)}

lemma Injecting.of_zero (h : Injecting 0 F cur) : cur = [] ∧ ∀ b ∈ F, b.Full := by
  generalize hn : 0 = n at h
  cases h with
  | idle hfull => exact ⟨rfl, hfull⟩
  | busy _ hpos _ => omega

lemma Injecting.of_pos (h : Injecting n F cur) (hn : 0 < n) :
    ∃ G b, F = G ++ [b] ∧ cur = [b.key] ∧ (∀ c ∈ G, c.Full) ∧
      b.sent.length + b.vals.length + n = b.len := by
  cases h with
  | idle _ => omega
  | busy hfull _ hlast => exact ⟨_, _, rfl, rfl, hfull, hlast⟩

lemma Draining.of_zero (h : Draining 0 F rest) : rest = [] ∧ ∀ b ∈ F, b.sent = [] := by
  generalize hn : 0 = n at h
  cases h with
  | idle hsent => exact ⟨rfl, hsent⟩
  | busy _ hpos _ => omega

lemma Draining.of_pos (h : Draining n F rest) (hn : 0 < n) :
    ∃ b G, F = b :: G ∧ rest = [b.idx] ∧ (∀ c ∈ G, c.sent = []) ∧ b.sent.length + n = b.len := by
  cases h with
  | idle _ => omega
  | busy hsent _ hlen => exact ⟨_, _, rfl, rfl, hsent, hlen⟩

/-- No more elements enter than a burst has. -/
lemma Injecting.le (h : Injecting n F cur) : ∀ b ∈ F, b.sent.length + b.vals.length ≤ b.len := by
  intro b hb
  cases h with
  | idle hfull => exact (hfull b hb).le
  | busy hfull _ hlast =>
    rcases List.mem_append.mp hb with hb | hb
    · exact (hfull b hb).le
    · rw [List.mem_singleton.mp hb]
      omega

/-- Draining an element does not concern the input side. -/
lemma Injecting.head (h : Injecting n (b :: F) cur) (hkey : b'.key = b.key) (hlen : b'.len = b.len)
    (htotal : b'.sent.length + b'.vals.length = b.sent.length + b.vals.length) :
    Injecting n (b' :: F) cur := by
  have hall : ∀ {G : List (Burst k w)}, (∀ c ∈ b :: G, c.Full) → ∀ c ∈ b' :: G, c.Full := by
    intro G hG c hc
    rcases List.mem_cons.mp hc with rfl | hc
    · have hb := hG b List.mem_cons_self
      simp only [Burst.Full] at hb ⊢
      omega
    · exact hG c (List.mem_cons_of_mem _ hc)
  rcases Nat.eq_zero_or_pos n with rfl | hn
  · obtain ⟨rfl, hfull⟩ := h.of_zero
    exact .idle (hall hfull)
  · obtain ⟨G, d, hF, rfl, hfull, hlast⟩ := h.of_pos hn
    cases G with
    | nil =>
      simp only [List.nil_append, List.cons.injEq] at hF
      obtain ⟨rfl, rfl⟩ := hF
      rw [← hkey]
      exact .busy (F := []) (by simp) hn (by omega)
    | cons e G =>
      simp only [List.cons_append, List.cons.injEq] at hF
      obtain ⟨rfl, rfl⟩ := hF
      exact .busy (F := b' :: G) (hall hfull) hn hlast

/-- A burst that is drained does not concern the input side. -/
lemma Injecting.tail (h : Injecting n (b :: F) cur) (hb : b.Full) : Injecting n F cur := by
  rcases Nat.eq_zero_or_pos n with rfl | hn
  · obtain ⟨rfl, hfull⟩ := h.of_zero
    exact .idle fun c hc => hfull c (List.mem_cons_of_mem _ hc)
  · obtain ⟨G, d, hF, rfl, hfull, hlast⟩ := h.of_pos hn
    cases G with
    | nil =>
      simp only [List.nil_append, List.cons.injEq] at hF
      obtain ⟨rfl, rfl⟩ := hF
      simp only [Burst.Full] at hb
      omega
    | cons e G =>
      simp only [List.cons_append, List.cons.injEq] at hF
      obtain ⟨rfl, rfl⟩ := hF
      exact .busy (fun c hc => hfull c (List.mem_cons_of_mem _ hc)) hn hlast

/-- A burst that begins to enter does not concern the output side. -/
lemma Draining.append (h : Draining n F rest) (hb : b.sent = []) : Draining n (F ++ [b]) rest := by
  have hall : ∀ {G : List (Burst k w)}, (∀ c ∈ G, c.sent = []) → ∀ c ∈ G ++ [b], c.sent = [] := by
    intro G hG c hc
    rcases List.mem_append.mp hc with hc | hc
    · exact hG c hc
    · rw [List.mem_singleton.mp hc, hb]
  cases h with
  | idle hF => exact .idle (hall hF)
  | busy hF hn hlen => exact .busy (hall hF) hn hlen

/-- An element that enters does not concern the output side. -/
lemma Draining.last (h : Draining n (F ++ [b]) rest) (hsent : b'.sent = b.sent) (hidx : b'.idx = b.idx)
    (hlen : b'.len = b.len) : Draining n (F ++ [b']) rest := by
  rcases Nat.eq_zero_or_pos n with rfl | hn
  · obtain ⟨rfl, hG⟩ := h.of_zero
    have hF : Draining 0 F [] := .idle fun c hc => hG c (List.mem_append_left _ hc)
    exact hF.append (by rw [hsent, hG b (by simp)])
  · obtain ⟨d, G, hF, rfl, hG, hd⟩ := h.of_pos hn
    cases F with
    | nil =>
      simp only [List.nil_append, List.cons.injEq] at hF
      obtain ⟨rfl, rfl⟩ := hF
      rw [← hidx]
      exact .busy (by simp) hn (by rw [hsent, hlen]; exact hd)
    | cons e F =>
      simp only [List.cons_append, List.cons.injEq] at hF
      obtain ⟨rfl, rfl⟩ := hF
      have he : Draining n (e :: F) [e.idx] :=
        .busy (fun c hc => hG c (List.mem_append_left _ hc)) hn hd
      exact he.append (by rw [hsent, hG b (by simp)])

/-- A counter of bits is 0 if it is as a number. -/
lemma eq_zero_iff_toNat {m : ℕ} (x : BitVec m) : x = 0 ↔ x.toNat = 0 := by
  rw [← BitVec.toNat_inj, BitVec.ofNat_eq_ofNat, BitVec.toNat_ofNat, Nat.zero_mod]

/-! ## The funnel and the block RAM -/

section Transit

variable {dataIn dataIn' : Net (funnelCap k (bitsPerCycle k) 2) (Fin 4 × (BitVec w × Bool))}
  {queue : Fin 4 → List (BitVec w × Bool)} {home : Fin 4 → ℕ}

/-- The funnel takes the elements along the paths of their names. -/
lemma name_follows : (namePaths k w home).Follows (funnelRoute k (bitsPerCycle k)) :=
  funnel_follows _ _ _

/-- A burst with an unused name begins to enter. -/
lemma Transit.begin (h : Transit dataIn F queue home) (hb : ∀ c ∈ F, c.name ≠ b.name)
    (hvals : b.vals = []) :
    Transit dataIn (F ++ [b]) queue (Function.update home b.name b.idx) := by
  -- there is nothing under the name
  have hnone : dataIn.Everywhere fun _ x => x.1 ≠ b.name := by
    intro n x hx hname
    obtain ⟨c, hc, hcx⟩ := h.named n x hx
    exact hb c hc (hcx.trans hname)
  have hstream : ∀ ν, ν ≠ b.name → dataIn.stream (namePaths k w (Function.update home b.name b.idx)) ν
      (stages k (bitsPerCycle k) + 1) =
        dataIn.stream (namePaths k w home) ν (stages k (bitsPerCycle k) + 1) := by
    intro ν hν
    have hpos : (namePaths k w (Function.update home b.name b.idx)).pos ν = (namePaths k w home).pos ν := by
      funext j
      simp [funnelPaths, Function.update_of_ne hν]
    exact Net.stream_paths_congr (by rfl) (by rfl) hpos _
  refine
    { home_eq := fun c hc => ?_
      traffic := fun c hc => ?_
      named := fun n x hx => ?_
      unnamed := fun ν hν => h.unnamed ν fun c hc => hν c (List.mem_append_left _ hc)
      confined := fun n x hx => ?_
      levels := h.levels }
  · rcases List.mem_append.mp hc with hc | hc
    · rw [Function.update_of_ne (hb c hc), h.home_eq c hc]
    · rw [List.mem_singleton.mp hc, Function.update_self]
  · rcases List.mem_append.mp hc with hc | hc
    · rw [hstream _ (hb c hc), h.traffic c hc]
    · obtain rfl := List.mem_singleton.mp hc
      rw [h.unnamed c.name hb, Net.stream_eq_nil hnone, hvals]
      rfl
  · obtain ⟨c, hc, hcx⟩ := h.named n x hx
    exact ⟨c, List.mem_append_left _ hc, hcx⟩
  · have hpos := h.confined n x hx
    simp only [namePaths, funnelPaths] at hpos ⊢
    rw [Function.update_of_ne (hnone n x hx)]
    exact hpos

/-- An element enters. -/
lemma Transit.enter (h : Transit dataIn (F ++ [b]) queue home) (hb : ∀ c ∈ F, c.name ≠ b.name)
    {v : BitVec w} {last : Bool} (hlast : last = decide (b.len - b.sent.length = b.vals.length + 1))
    (henq : dataIn.enq (stages k (bitsPerCycle k), b.idx) (b.name, (v, last)) = some dataIn') :
    Transit dataIn' (F ++ [{ b with vals := b.vals ++ [v] }]) queue home := by
  have hbm : b ∈ F ++ [b] := by simp
  have htop : (namePaths k w home).pos b.name (stages k (bitsPerCycle k)) =
      (stages k (bitsPerCycle k), b.idx.val) := by
    rw [funnelPaths_top, h.home_eq b hbm]
  have hstream : ∀ ν, dataIn'.stream (namePaths k w home) ν (stages k (bitsPerCycle k) + 1) =
      dataIn.stream (namePaths k w home) ν (stages k (bitsPerCycle k) + 1) ++
        if b.name = ν then [(v, last)] else [] :=
    fun ν => Net.stream_enq name_follows henq htop
  -- the names are as before
  have hmem : ∀ ν, (∃ c ∈ F ++ [b], c.name = ν) → ∃ c ∈ F ++ [{ b with vals := b.vals ++ [v] }],
      c.name = ν := by
    rintro ν ⟨c, hc, hcν⟩
    rcases List.mem_append.mp hc with hc | hc
    · exact ⟨c, List.mem_append_left _ hc, hcν⟩
    · obtain rfl := List.mem_singleton.mp hc
      exact ⟨_, List.mem_append_right _ List.mem_cons_self, hcν⟩
  refine
    { home_eq := fun c hc => ?_
      traffic := fun c hc => ?_
      named := Net.Everywhere.enq (fun n x hx => hmem _ (h.named n x hx)) henq (hmem _ ⟨b, hbm, rfl⟩)
      unnamed := fun ν hν => h.unnamed ν fun c hc hcν => ?_
      confined := Net.Everywhere.enq h.confined henq htop
      levels := h.levels.enq henq (Nat.le_refl _) }
  · rcases List.mem_append.mp hc with hc | hc
    · exact h.home_eq c (List.mem_append_left _ hc)
    · rw [List.mem_singleton.mp hc]
      exact h.home_eq b hbm
  · rw [hstream]
    rcases List.mem_append.mp hc with hc | hc
    · rw [if_neg (hb c hc).symm, List.append_nil]
      exact h.traffic c (List.mem_append_left _ hc)
    · rw [List.mem_singleton.mp hc]
      simp only [if_true]
      rw [← List.append_assoc, h.traffic b hbm, marked_append, hlast]
  · obtain ⟨d, hd, hdν⟩ := hmem ν ⟨c, hc, hcν⟩
    exact hν d hd hdν

/-- An element moves on in the funnel. -/
lemma Transit.move (h : Transit dataIn F queue home) {n : Node}
    (hmove : dataIn.move (funnelRoute k (bitsPerCycle k)) n = some dataIn') :
    Transit dataIn' F queue home := by
  have hlevel : n.1 ≤ stages k (bitsPerCycle k) := by
    obtain ⟨x, m, y, -, -, hroute, -⟩ := Net.move_eq_some hmove
    simp only [funnelRoute, Option.ite_none_right_eq_some] at hroute
    exact hroute.1.2.1
  refine
    { home_eq := h.home_eq
      traffic := fun b hb => ?_
      named := h.named.move hmove fun hx hroute => ?_
      unnamed := h.unnamed
      confined := h.confined.move name_follows hmove
      levels := h.levels.move hmove fun hle hroute => ?_ }
  · rw [Net.stream_move name_follows h.confined hmove (Nat.lt_succ_of_le hlevel)]
    exact h.traffic b hb
  · simp only [funnelRoute, Option.ite_none_right_eq_some, Option.some.injEq, Prod.mk.injEq] at hroute
    obtain ⟨-, -, rfl⟩ := hroute
    exact hx
  · simp only [funnelRoute, Option.ite_none_right_eq_some, Option.some.injEq, Prod.mk.injEq] at hroute
    obtain ⟨-, rfl, -⟩ := hroute
    exact (Nat.sub_le _ _).trans hle

/-- An element leaves the funnel. -/
lemma Transit.arrive (h : Transit dataIn F queue home) {ν : Fin 4} {x : BitVec w × Bool}
    (hdeq : dataIn.deq (0, 0) = some ((ν, x), dataIn')) :
    (∃ b ∈ F, b.name = ν ∧ (queue ν).length < b.vals.length) ∧
      Transit dataIn' F (Function.update queue ν (queue ν ++ [x])) home := by
  have hx : (ν, x) ∈ dataIn.items (0, 0) := by
    rw [(Net.deq_eq_some hdeq).1]
    exact List.mem_cons_self
  obtain ⟨b, hb, hname⟩ := h.named (0, 0) (ν, x) hx
  obtain rfl : b.name = ν := hname
  have hbot : (namePaths k w home).pos b.name 0 = (0, 0) := by
    refine funnelPaths_bottom (bitsPerCycle_pos k) _ _ ?_
    rw [h.home_eq b hb]
    exact b.idx.isLt
  have hstream : ∀ μ, dataIn.stream (namePaths k w home) μ (stages k (bitsPerCycle k) + 1) =
      (if b.name = μ then [x] else []) ++
        dataIn'.stream (namePaths k w home) μ (stages k (bitsPerCycle k) + 1) :=
    fun μ => Net.stream_deq name_follows _ hdeq hbot
  refine ⟨⟨b, hb, rfl, ?_⟩,
    { home_eq := h.home_eq
      traffic := fun c hc => ?_
      named := h.named.deq hdeq
      unnamed := fun μ hμ => ?_
      confined := Net.Everywhere.deq h.confined hdeq
      levels := h.levels.deq hdeq }⟩
  · have hlen := congrArg List.length (h.traffic b hb)
    rw [hstream, if_pos rfl, length_marked] at hlen
    simp only [List.length_append, List.length_singleton] at hlen
    omega
  · have ht := h.traffic c hc
    rw [hstream] at ht
    by_cases hcν : c.name = b.name
    · rw [hcν] at ht ⊢
      rw [Function.update_self, ← ht, if_pos rfl, List.append_assoc]
    · rw [Function.update_of_ne hcν, ← ht, if_neg fun he => hcν he.symm, List.nil_append]
  · have hne : μ ≠ b.name := fun he => hμ b hb he.symm
    rw [Function.update_of_ne hne]
    exact h.unnamed μ hμ

/-- An element is taken from the block RAM. -/
lemma Transit.take (h : Transit dataIn (b :: F) queue home) (hb : ∀ c ∈ F, c.name ≠ b.name)
    {x : BitVec w × Bool} {xs : List (BitVec w × Bool)} (hq : queue b.name = x :: xs) :
    ∃ v vs, b.vals = v :: vs ∧ x = (v, decide (b.len - b.sent.length = 1)) ∧
      Transit dataIn ({ b with sent := b.sent ++ [v], vals := vs } :: F)
        (Function.update queue b.name xs) home := by
  have ht := h.traffic b List.mem_cons_self
  rw [hq] at ht
  cases hv : b.vals with
  | nil =>
    rw [hv] at ht
    cases ht
  | cons v vs =>
    rw [hv] at ht
    simp only [marked, List.cons_append, List.cons.injEq] at ht
    obtain ⟨hx, hrest⟩ := ht
    have hmem : ∀ ν, (∃ c ∈ b :: F, c.name = ν) →
        ∃ c ∈ { b with sent := b.sent ++ [v], vals := vs } :: F, c.name = ν := by
      rintro ν ⟨c, hc, hcν⟩
      rcases List.mem_cons.mp hc with rfl | hc
      · exact ⟨_, List.mem_cons_self, hcν⟩
      · exact ⟨c, List.mem_cons_of_mem _ hc, hcν⟩
    refine ⟨v, vs, rfl, hx,
      { home_eq := fun c hc => ?_
        traffic := fun c hc => ?_
        named := fun n y hy => hmem _ (h.named n y hy)
        unnamed := fun ν hν => ?_
        confined := h.confined
        levels := h.levels }⟩
    · rcases List.mem_cons.mp hc with rfl | hc
      · exact h.home_eq b List.mem_cons_self
      · exact h.home_eq c (List.mem_cons_of_mem _ hc)
    · rcases List.mem_cons.mp hc with rfl | hc
      · simp only [Function.update_self, hrest, List.length_append, List.length_singleton]
        rw [Nat.sub_add_eq]
      · rw [Function.update_of_ne (hb c hc)]
        exact h.traffic c (List.mem_cons_of_mem _ hc)
    · have hne : ν ≠ b.name := fun he => hν _ List.mem_cons_self he.symm
      rw [Function.update_of_ne hne]
      refine h.unnamed ν fun c hc hcν => ?_
      obtain ⟨d, hd, hdν⟩ := hmem ν ⟨c, hc, hcν⟩
      exact hν d hd hdν

/-- When all of a burst has been taken, nothing is left under its name. -/
lemma Transit.leave (h : Transit dataIn (b :: F) queue home) (hb : b.vals = []) :
    Transit dataIn F queue home := by
  have ht := h.traffic b List.mem_cons_self
  rw [hb] at ht
  obtain ⟨hq, hs⟩ := List.append_eq_nil_iff.mp ht
  have hnone : dataIn.Everywhere fun _ x => x.1 ≠ b.name :=
    Net.Confined.everywhere_ne h.confined (fun n x hx => Nat.lt_succ_of_le (h.levels n x hx)) hs
  refine
    { home_eq := fun c hc => h.home_eq c (List.mem_cons_of_mem _ hc)
      traffic := fun c hc => h.traffic c (List.mem_cons_of_mem _ hc)
      named := fun n x hx => ?_
      unnamed := fun ν hν => ?_
      confined := h.confined
      levels := h.levels }
  · obtain ⟨c, hc, hcx⟩ := h.named n x hx
    rcases List.mem_cons.mp hc with rfl | hc
    · exact absurd hcx.symm (hnone n x hx)
    · exact ⟨c, hc, hcx⟩
  · by_cases hbν : b.name = ν
    · rw [← hbν]
      exact hq
    · refine h.unnamed ν fun c hc => ?_
      rcases List.mem_cons.mp hc with rfl | hc
      · exact hbν
      · exact hν c hc

end Transit

/-! ## The operations -/

/-- The bursts that have not begun to be drained: those that the register of their input still matters
for. -/
def undrained (s : BurstFunnel k w) : List (Fin k × Fin 4) :=
  (if s.drainCnt = 0 then s.inFlight.items else s.inFlight.items.tail) ++
    if s.injCtrl = 0 then s.loadIdxs.items else s.loadIdxs.items.tail

/-- All bursts asked for from input `i` are being drained or have been. -/
def Settled (s : BurstFunnel k w) (i : Fin k) : Prop := ∀ e ∈ s.undrained, e.1 ≠ i

instance (s : BurstFunnel k w) (i : Fin k) : Decidable (s.Settled i) :=
  inferInstanceAs (Decidable (∀ e ∈ s.undrained, e.1 ≠ i))

variable {L : Log k w} {s s' : BurstFunnel k w} {V : Flights k w}

/-- After reset. -/
lemma carries_reset (buff : BitVec (buffAddrSz 4 16) → BitVec w × Bool) :
    Carries ⟨[], [], []⟩ (reset k w buff) ⟨[], [], [], fun _ => [], fun _ => 0, []⟩ where
  calls := rfl
  entered := rfl
  left := rfl
  past := by simp
  waiting := by simp
  len := by simp
  names := by simp
  inFlight := rfl
  loadIdxs := ⟨[], rfl, .idle (by simp)⟩
  drained := ⟨[], .idle (by simp), .nil _⟩
  burstLen := by simp [Flights.undrained]
  transit :=
    { home_eq := by simp
      traffic := by simp
      named := fun n x hx => by cases hx
      unnamed := fun _ _ => rfl
      confined := fun n x hx => by cases hx
      levels := fun n x hx => by cases hx }
  compCnts := fun _ => rfl
  holds := UGBramFifos.holds_reset (by omega) buff

/-- The names of the bursts in flight are different. -/
lemma Carries.nodup (h : Carries L s V) : (V.flying.map Burst.name).Nodup := by
  have hlen := s.inFlight.length_le
  rw [h.inFlight, List.length_map] at hlen
  have hchain := h.names
  rw [List.map_append, List.append_assoc] at hchain
  exact nodup_of_isChain (List.isChain_append.mp hchain).1 (by simpa using hlen)

/-- The state tells which bursts have not begun to be drained. -/
lemma Carries.undrained_eq (h : Carries L s V) :
    s.undrained = (V.undrained s.drainCnt).map Burst.key := by
  obtain ⟨cur, hload, hinj⟩ := h.loadIdxs
  have hwait : (if s.injCtrl = 0 then s.loadIdxs.items else s.loadIdxs.items.tail) =
      V.waiting.map Burst.key := by
    rcases Nat.eq_zero_or_pos s.injCtrl.toNat with hn | hn
    · rw [hn] at hinj
      rw [if_pos ((eq_zero_iff_toNat _).mpr hn), hload, hinj.of_zero.1]
      rfl
    · obtain ⟨G, b, -, rfl, -, -⟩ := hinj.of_pos hn
      rw [if_neg fun h0 => by rw [eq_zero_iff_toNat] at h0; omega, hload]
      rfl
  rw [undrained, hwait, h.inFlight, Flights.undrained, List.map_append]
  split
  · rfl
  · rw [List.map_tail]

/-- A burst that has not begun to be drained was asked for with the length in the register. -/
lemma Carries.exists_call (h : Carries L s V) {i : Fin k} (hs : ¬ s.Settled i) :
    (i, (s.burstLen i).toNat) ∈ L.calls := by
  simp only [Settled, not_forall, not_not] at hs
  obtain ⟨e, he, hi⟩ := hs
  rw [h.undrained_eq] at he
  obtain ⟨b, hb, rfl⟩ := List.mem_map.mp he
  obtain rfl : b.idx = i := hi
  have hmem : b ∈ V.past ++ V.flying ++ V.waiting := by
    rw [List.append_assoc]
    refine List.mem_append_right _ ?_
    rcases List.mem_append.mp hb with hb | hb
    · refine List.mem_append_left _ ?_
      split at hb
      · exact hb
      · exact List.mem_of_mem_tail hb
    · exact List.mem_append_right _ hb
  rw [h.calls, h.burstLen b hb]
  exact List.mem_map_of_mem hmem

/-- Method `loadIdx`; the length of the burst is what the register says. -/
lemma Carries.loadIdx (h : Carries L s V) {i : Fin k}
    (hlen : 1 ≤ (s.burstLen i).toNat ∧ (s.burstLen i).toNat ≤ 16) (hs : s.loadIdx i = some s') :
    ∃ V', Carries { L with calls := L.calls ++ [(i, (s.burstLen i).toNat)] } s' V' := by
  simp only [BurstFunnel.loadIdx, bind, pure, Option.bind_eq_some_iff, Fifo.enq_eq_some,
    Option.some.injEq] at hs
  obtain ⟨loadIdxs, ⟨-, hitems⟩, rfl⟩ := hs
  obtain ⟨cur, hload, hinj⟩ := h.loadIdxs
  let b : Burst k w := ⟨i, s.nameGen, (s.burstLen i).toNat, [], []⟩
  refine ⟨{ V with waiting := V.waiting ++ [b] }, { h with
    calls := ?_
    waiting := fun c hc => ?_
    len := fun c hc => ?_
    names := ?_
    loadIdxs := ⟨cur, ?_, hinj⟩
    burstLen := fun c hc => ?_ }⟩
  · rw [h.calls, ← List.append_assoc, List.map_append]
    simp [Burst.call, b]
  · rcases List.mem_append.mp hc with hc | hc
    · exact h.waiting c hc
    · rw [List.mem_singleton.mp hc]
      exact ⟨rfl, rfl⟩
  · simp only [← List.append_assoc] at hc
    rcases List.mem_append.mp hc with hc | hc
    · exact h.len c hc
    · rw [List.mem_singleton.mp hc]
      exact hlen
  · simp only [← List.append_assoc, List.map_append, List.map_cons, List.map_nil]
    refine List.isChain_append.mpr ⟨by simpa using h.names, List.isChain_singleton _, ?_⟩
    simp [b]
  · rw [hitems, hload, List.map_append, List.append_assoc]
    rfl
  · simp only [Flights.undrained, ← List.append_assoc] at hc
    rcases List.mem_append.mp hc with hc | hc
    · exact h.burstLen c hc
    · rw [List.mem_singleton.mp hc]

/-- A write to the register of an input whose bursts are settled, or of the value it has. -/
lemma Carries.setBurstLen (h : Carries L s V) {i : Fin k} {v : BitVec 8}
    (hv : v = s.burstLen i ∨ s.Settled i) : Carries L (s.setBurstLen i v) V := by
  refine { h with burstLen := fun b hb => ?_ }
  have hlen := h.burstLen b hb
  simp only [BurstFunnel.setBurstLen]
  rcases hv with rfl | hv
  · rwa [Function.update_eq_self]
  · have hne : b.idx ≠ i := by
      refine hv b.key ?_
      rw [h.undrained_eq]
      exact List.mem_map_of_mem hb
    rwa [Function.update_of_ne hne]

/-- The next burst begins to enter: its name is not in use, and its counter is what the register says. -/
lemma Carries.begin (h : Carries L s V) {e : Fin k × Fin 4} {es : List (Fin k × Fin 4)}
    (h0 : s.injCtrl = 0) (hload : s.loadIdxs.items = e :: es) {q : Fifo 4 (Fin k × Fin 4)}
    (hq : s.inFlight.enq e = some q) :
    (∀ b ∈ V.flying, b.name ≠ e.2) ∧ s.burstLen e.1 ≠ 0 ∧
      ∃ V', Carries L { s with injCtrl := s.burstLen e.1, inFlight := q } V' := by
  obtain ⟨hroom, hq⟩ := Fifo.enq_eq_some.mp hq
  obtain ⟨cur, hcur, hinj⟩ := h.loadIdxs
  rw [h0] at hinj
  obtain ⟨rfl, hfull⟩ := hinj.of_zero
  -- the burst is the first of those that wait
  obtain ⟨b, W, hW⟩ : ∃ b W, V.waiting = b :: W := by
    cases hW : V.waiting with
    | nil => rw [hcur, hW] at hload; cases hload
    | cons b W => exact ⟨b, W, rfl⟩
  have hkey : b.key = e ∧ W.map Burst.key = es := by
    rw [hcur, hW] at hload
    simpa using hload
  obtain ⟨rfl, rfl⟩ := hkey
  obtain ⟨hsent, hvals⟩ := h.waiting b (by simp [hW])
  have hlen := h.len b (by simp [hW])
  have hreg : (s.burstLen b.idx).toNat = b.len := h.burstLen b (by simp [Flights.undrained, hW])
  have hfresh : ∀ c ∈ V.flying, c.name ≠ b.name := by
    have hchain := h.names
    rw [hW, show (V.flying ++ b :: W).map Burst.name ++ [s.nameGen] =
      (V.flying.map Burst.name ++ [b.name]) ++ (W.map Burst.name ++ [s.nameGen]) by simp] at hchain
    rw [h.inFlight, List.length_map] at hroom
    have hnodup := nodup_of_isChain (List.isChain_append.mp hchain).1 (by simp; omega)
    intro c hc he
    exact List.disjoint_of_nodup_append hnodup (List.mem_map_of_mem hc) (by simp [he])
  refine ⟨hfresh, fun hz => ?_,
    { V with
      flying := V.flying ++ [b]
      waiting := W
      home := Function.update V.home b.name b.idx },
    { calls := ?_
      entered := ?_
      left := ?_
      past := h.past
      waiting := fun c hc => h.waiting c (by simp [hW, hc])
      len := fun c hc => h.len c ?_
      names := ?_
      inFlight := ?_
      loadIdxs := ⟨[b.key], by rw [hcur, hW]; rfl, ?_⟩
      drained := ?_
      burstLen := fun c hc => h.burstLen c ?_
      transit := h.transit.begin hfresh hvals
      compCnts := h.compCnts
      holds := h.holds }⟩
  · rw [eq_zero_iff_toNat] at hz
    change (s.burstLen b.idx).toNat = 0 at hz
    omega
  · rw [h.calls, hW]
    simp
  · rw [h.entered]
    simp [Burst.entries, hsent, hvals]
  · rw [h.left]
    simp [Burst.exits, hsent]
  · rw [hW]
    simpa using hc
  · have hchain := h.names
    rw [hW] at hchain
    simpa using hchain
  · rw [hq, h.inFlight, List.map_append]
    rfl
  · refine .busy hfull ?_ ?_
    · change 0 < (s.burstLen b.idx).toNat
      omega
    · change b.sent.length + b.vals.length + (s.burstLen b.idx).toNat = b.len
      rw [hsent, hvals, hreg]
      simp
  · obtain ⟨rest, hdrain, hlabels⟩ := h.drained
    exact ⟨rest, hdrain.append hsent, hlabels⟩
  · simp only [Flights.undrained, hW] at hc ⊢
    by_cases hz : s.drainCnt = 0
    · simpa only [hz, if_true, List.append_assoc, List.singleton_append] using hc
    · simp only [hz, if_false] at hc ⊢
      cases hF : V.flying with
      | nil =>
        rw [hF] at hc
        simp only [List.nil_append, List.tail_cons] at hc
        simp [hc]
      | cons d F =>
        rw [hF] at hc
        simpa using hc

/-- An element of the burst that is entering. -/
lemma Carries.enter (h : Carries L s V) {e : Fin k × Fin 4} {es : List (Fin k × Fin 4)}
    (h0 : s.injCtrl ≠ 0) (hload : s.loadIdxs.items = e :: es) {v : BitVec w} {last : Bool}
    (hlast : last = decide (s.injCtrl - 1 = 0)) {q : Fifo 32 (Fin k × Fin 4)}
    (hq : s.loadIdxs.dropIf last = some q)
    {dataIn : Net (funnelCap k (bitsPerCycle k) 2) (Fin 4 × (BitVec w × Bool))}
    (henq : s.dataIn.enq (stages k (bitsPerCycle k), e.1) (e.2, (v, last)) = some dataIn) :
    ∃ V', Carries { L with entered := L.entered ++ [(e.1, v)] }
      { s with injCtrl := s.injCtrl - 1, loadIdxs := q, dataIn } V' := by
  have hpos : 0 < s.injCtrl.toNat := by
    rw [ne_eq, eq_zero_iff_toNat] at h0
    omega
  have hsub := Loader.counter_sub_one hpos
  obtain ⟨cur, hcur, hinj⟩ := h.loadIdxs
  obtain ⟨G, b, hF, rfl, hfull, htotal⟩ := hinj.of_pos hpos
  have hkey : b.key = e ∧ V.waiting.map Burst.key = es := by
    rw [hcur] at hload
    simpa using hload
  obtain ⟨rfl, rfl⟩ := hkey
  have hother : ∀ c ∈ G, c.name ≠ b.name := by
    have hnodup := h.nodup
    rw [hF, List.map_append] at hnodup
    intro c hc he
    exact List.disjoint_of_nodup_append hnodup (List.mem_map_of_mem hc) (by simp [he])
  have hlast' : last = decide (b.len - b.sent.length = b.vals.length + 1) := by
    rw [hlast, decide_eq_decide, eq_zero_iff_toNat, hsub]
    omega
  have htransit := h.transit
  rw [hF] at htransit
  refine ⟨{ V with flying := G ++ [{ b with vals := b.vals ++ [v] }] },
    { calls := ?_
      entered := ?_
      left := ?_
      past := h.past
      waiting := h.waiting
      len := fun c hc => ?_
      names := ?_
      inFlight := ?_
      loadIdxs := ?_
      drained := ?_
      burstLen := fun c hc => ?_
      transit := htransit.enter hother hlast' henq
      compCnts := h.compCnts
      holds := h.holds }⟩
  · rw [h.calls, hF]
    simp [Burst.call]
  · simp only [h.entered, hF]
    simp [Burst.entries, Burst.key]
  · rw [h.left, hF]
    simp [Burst.exits]
  · have hb := h.len b (by simp [hF])
    simp only [List.append_assoc, List.mem_append, List.mem_singleton] at hc
    rcases hc with hc | rfl | hc
    · exact h.len c (by simp [hF, hc])
    · exact hb
    · exact h.len c (by simp [hc])
  · have hchain := h.names
    rw [hF] at hchain
    simpa using hchain
  · rw [h.inFlight, hF]
    simp [Burst.key]
  · have hfull' : last = true → ∀ c ∈ G ++ [{ b with vals := b.vals ++ [v] }], c.Full := by
      intro hl c hc
      rw [hlast', decide_eq_true_iff] at hl
      rcases List.mem_append.mp hc with hc | hc
      · exact hfull c hc
      · rw [List.mem_singleton.mp hc]
        simp only [Burst.Full, List.length_append, List.length_singleton]
        omega
    rw [Fifo.dropIf_eq_some] at hq
    cases hl : last with
    | true =>
      rw [hl, if_pos rfl, hcur] at hq
      obtain ⟨x, hq⟩ := hq
      have hzero : (s.injCtrl - 1).toNat = 0 := by
        rw [hl] at hlast
        rw [← eq_zero_iff_toNat]
        simpa using hlast.symm
      refine ⟨[], ?_, ?_⟩
      · simp only [List.cons_append, List.nil_append, List.cons.injEq] at hq
        rw [← hq.2]
        rfl
      · simp only [hzero]
        exact .idle (hfull' hl)
    | false =>
      rw [hl, if_neg (by simp)] at hq
      have hne : (s.injCtrl - 1).toNat ≠ 0 := by
        rw [hl] at hlast
        rw [ne_eq, ← eq_zero_iff_toNat]
        simpa using hlast.symm
      refine ⟨[b.key], by rw [hq, hcur], ?_⟩
      refine .busy hfull (by simp only; omega) ?_
      simp only [List.length_append, List.length_singleton]
      omega
  · obtain ⟨rest, hdrain, hlabels⟩ := h.drained
    rw [hF] at hdrain
    exact ⟨rest, hdrain.last rfl rfl rfl, hlabels⟩
  · have hreg := h.burstLen
    simp only [Flights.undrained, hF] at hc hreg
    split at hc
    · rename_i hz
      simp only [hz, if_true] at hreg
      simp only [List.append_assoc, List.mem_append, List.mem_singleton] at hc hreg
      rcases hc with hc | rfl | hc
      · exact hreg c (.inl hc)
      · exact hreg b (.inr (.inl rfl))
      · exact hreg c (.inr (.inr hc))
    · rename_i hz
      simp only [hz, if_false] at hreg
      cases G with
      | nil => exact hreg c (by simpa using hc)
      | cons d G =>
        simp only [List.cons_append, List.tail_cons, List.append_assoc, List.nil_append, List.mem_append,
          List.mem_cons] at hc hreg
        rcases hc with hc | rfl | hc
        · exact hreg c (.inl hc)
        · exact hreg b (.inr (.inl rfl))
        · exact hreg c (.inr (.inr hc))

/-- `dataIn[i].enq`. -/
lemma Carries.enq (h : Carries L s V) {i : Fin k} {v : BitVec w} (hs : s.enq i v = some s') :
    ∃ V', Carries { L with entered := L.entered ++ [(i, v)] } s' V' := by
  simp only [BurstFunnel.enq, bind, pure, Option.bind_eq_some_iff, Prod.exists, Fifo.first_eq_some,
    Option.ite_none_right_eq_some, Option.some.injEq] at hs
  obtain ⟨j, ν, ⟨es, hload⟩, rfl, q, hq, p, hp, dataIn, henq, rfl⟩ := hs
  by_cases h0 : s.injCtrl = 0
  · -- the first element: the burst begins, and then the element enters
    simp only [h0, decide_true, if_true] at hq hp henq ⊢
    obtain ⟨-, hreg, V₁, h₁⟩ := h.begin h0 hload hq
    exact h₁.enter (e := (j, ν)) hreg hload rfl hp henq
  · have hqs : q = s.inFlight := by
      rw [Fifo.enqIf_eq_some] at hq
      simp only [h0, decide_false, Bool.false_eq_true, if_false, List.append_nil] at hq
      exact Fifo.ext hq.2
    simp only [h0, decide_false, Bool.false_eq_true, if_false] at hp henq ⊢
    rw [hqs]
    exact h.enter (e := (j, ν)) h0 hload rfl hp henq

/-- An element moves on in the funnel. -/
lemma Carries.moveData (h : Carries L s V) {n : Node} (hs : s.moveData n = some s') :
    Carries L s' V := by
  simp only [BurstFunnel.moveData, bind, pure, Option.bind_eq_some_iff, Option.some.injEq] at hs
  obtain ⟨dataIn, hmove, rfl⟩ := hs
  exact { h with transit := h.transit.move hmove }

/-- There is room for the elements of a burst in the block RAM. -/
lemma Carries.vals_le (h : Carries L s V) : ∀ b ∈ V.flying, b.vals.length ≤ 16 := by
  intro b hb
  obtain ⟨cur, -, hinj⟩ := h.loadIdxs
  have h₁ := hinj.le b hb
  have h₂ := h.len b (List.mem_append_left _ hb)
  omega

/-- Rule `drain_funnel`. -/
lemma Carries.drainFunnel (h : Carries L s V) (hs : s.drainFunnel = some s') :
    ∃ V', Carries L s' V' := by
  simp only [BurstFunnel.drainFunnel, bind, pure, Option.bind_eq_some_iff, Prod.exists,
    Option.some.injEq] at hs
  obtain ⟨ν, v, last, dataIn, hdeq, rfl⟩ := hs
  obtain ⟨⟨b, hb, -, hroom⟩, htransit⟩ := h.transit.arrive hdeq
  have hle := h.vals_le b hb
  refine ⟨{ V with queue := Function.update V.queue ν (V.queue ν ++ [(v, last)]) }, { h with
    transit := htransit
    compCnts := fun μ => ?_
    holds := h.holds.enq (by omega) (v, last) }⟩
  by_cases hμ : μ = ν
  · subst hμ
    simp only [Function.update_self, h.compCnts, List.length_append, List.length_singleton]
    rw [BitVec.ofNat_add]
    rfl
  · simp only [Function.update_of_ne hμ, h.compCnts]

/-- The first of the bursts in flight begins to be drained. -/
lemma Carries.beginDrain (h : Carries L s V) {e : Fin k × Fin 4} {es : List (Fin k × Fin 4)}
    (h0 : s.drainCnt = 0) (hfly : s.inFlight.items = e :: es) {q : Fifo 2 (Fin k)}
    (hq : s.drainRename.enq e.1 = some q) :
    s.burstLen e.1 ≠ 0 ∧ Carries L { s with drainCnt := s.burstLen e.1, drainRename := q } V := by
  obtain ⟨-, hq⟩ := Fifo.enq_eq_some.mp hq
  obtain ⟨rest, hdrain, hlabels⟩ := h.drained
  rw [h0] at hdrain
  obtain ⟨rfl, hsent⟩ := hdrain.of_zero
  obtain ⟨b, F, hF⟩ : ∃ b F, V.flying = b :: F := by
    cases hF : V.flying with
    | nil => rw [h.inFlight, hF] at hfly; cases hfly
    | cons b F => exact ⟨b, F, rfl⟩
  obtain rfl : b.key = e := by
    rw [h.inFlight, hF] at hfly
    simp only [List.map_cons, List.cons.injEq] at hfly
    exact hfly.1
  have hreg : (s.burstLen b.idx).toNat = b.len := h.burstLen b (by simp [Flights.undrained, h0, hF])
  have hlen := h.len b (by simp [hF])
  have hb := hsent b (by simp [hF])
  have hne : s.burstLen b.key.1 ≠ 0 := by
    rw [ne_eq, eq_zero_iff_toNat]
    change (s.burstLen b.idx).toNat ≠ 0
    omega
  refine ⟨hne, { h with
    drained := ⟨[b.idx], ?_, by rw [hq]; exact hlabels.append_label b.idx⟩
    burstLen := fun c hc => h.burstLen c ?_ }⟩
  · rw [hF]
    refine .busy (fun c hc => hsent c (by simp [hF, hc])) ?_ ?_
    · change 0 < (s.burstLen b.idx).toNat
      omega
    · change b.sent.length + (s.burstLen b.idx).toNat = b.len
      rw [hb, hreg]
      simp
  · simp only [Flights.undrained, hne, if_false] at hc
    simp only [Flights.undrained, h0, if_true]
    rcases List.mem_append.mp hc with hc | hc
    · exact List.mem_append_left _ (List.mem_of_mem_tail hc)
    · exact List.mem_append_right _ hc

/-- Bursts that are not being drained have no part in what has come out. -/
lemma flatMap_exits_eq_nil (h : ∀ b ∈ F, b.sent = []) : F.flatMap Burst.exits = [] := by
  rw [List.flatMap_eq_nil_iff]
  intro b hb
  rw [Burst.exits, h b hb]
  rfl

section Drain

variable {b : Burst k w} {v : BitVec w}

/-- A name of which elements are counted has elements in its queue. -/
lemma Carries.exists_queue (h : Carries L s V) {ν : Fin 4} (hcnt : s.compCnts ν > 0) :
    ∃ x xs, V.queue ν = x :: xs := by
  cases hx : V.queue ν with
  | nil =>
    rw [h.compCnts, hx] at hcnt
    exact absurd hcnt (BitVec.lt_irrefl _)
  | cons x xs => exact ⟨x, xs, rfl⟩

/-- The counters after an element has been taken. -/
lemma Carries.compCnts_tail (h : Carries L s V) {ν : Fin 4} {x : BitVec w × Bool} {xs : List (BitVec w × Bool)}
    (hx : V.queue ν = x :: xs) (μ : Fin 4) :
    Function.update s.compCnts ν (s.compCnts ν - 1) μ =
      BitVec.ofNat 16 (Function.update V.queue ν xs μ).length := by
  by_cases hμ : μ = ν
  · subst hμ
    rw [Function.update_self, Function.update_self, h.compCnts, hx, List.length_cons, BitVec.ofNat_add]
    exact BitVec.add_sub_cancel _ _
  · rw [Function.update_of_ne hμ, Function.update_of_ne hμ, h.compCnts]

/-- The burst that is being drained is the only one with its name. -/
lemma Carries.name_ne (h : Carries L s V) (hF : V.flying = b :: F) : ∀ c ∈ F, c.name ≠ b.name := by
  have hnodup := h.nodup
  rw [hF, List.map_cons, List.nodup_cons] at hnodup
  intro c hc he
  exact hnodup.1 (he ▸ List.mem_map_of_mem hc)

/-- What has come out or is about to, with one more element of the burst that is being drained. -/
lemma Carries.left_concat (h : Carries L s V) (hF : V.flying = b :: F) (hsent : ∀ c ∈ F, c.sent = []) :
    L.left ++ (s.exitData.items ++ (V.answers ++ [(b.idx, v)])) =
      V.past.flatMap Burst.exits ++ (b.sent ++ [v]).map fun u => (b.idx, u) := by
  have hold := h.left
  rw [hF, List.flatMap_append, List.flatMap_cons, flatMap_exits_eq_nil hsent, List.append_nil] at hold
  rw [← List.append_assoc, ← List.append_assoc, List.append_assoc L.left, hold, List.map_append]
  simp [Burst.exits]

end Drain

/-- An element of the burst that is being drained; the burst leaves with its last element. -/
lemma Carries.drain (h : Carries L s V) {e : Fin k × Fin 4} {es : List (Fin k × Fin 4)}
    (h0 : s.drainCnt ≠ 0) (hfly : s.inFlight.items = e :: es) (hcnt : s.compCnts e.2 > 0)
    {q : Fifo 4 (Fin k × Fin 4)} (hq : s.inFlight.dropIf (decide (s.drainCnt - 1 = 0)) = some q)
    {buff : UGBramFifos 4 16 (BitVec w × Bool)} (hbuff : s.complBuff.firstReq e.2 = some buff) :
    ∃ V', Carries L { s with
      inFlight := q
      complBuff := buff.deq e.2
      drainCnt := s.drainCnt - 1
      compCnts := Function.update s.compCnts e.2 (s.compCnts e.2 - 1) } V' := by
  have hpos : 0 < s.drainCnt.toNat := by
    rw [ne_eq, eq_zero_iff_toNat] at h0
    omega
  have hsub := Loader.counter_sub_one hpos
  obtain ⟨rest, hdrain, hlabels⟩ := h.drained
  obtain ⟨b, F, hF, rfl, hsent, hcount⟩ := hdrain.of_pos hpos
  have hkey : b.key = e ∧ F.map Burst.key = es := by
    rw [h.inFlight, hF] at hfly
    simpa using hfly
  obtain ⟨rfl, rfl⟩ := hkey
  have hcnt : s.compCnts b.name > 0 := hcnt
  obtain ⟨x, xs, hx⟩ := h.exists_queue hcnt
  have htransit := h.transit
  rw [hF] at htransit
  obtain ⟨v, vs, hvals, rfl, htake⟩ := htransit.take (h.name_ne hF) hx
  obtain ⟨hholds, hresp⟩ := h.holds.firstReq hx hbuff
  have hlabels' := hlabels.append_item v (decide (b.len - b.sent.length = 1))
  rw [← hresp] at hlabels'
  obtain ⟨cur, hcur, hinj⟩ := h.loadIdxs
  have htotal := hinj.le b (by simp [hF])
  rw [hvals, List.length_cons] at htotal
  rw [hF] at hinj
  have hinj' : Injecting s.injCtrl.toNat ({ b with sent := b.sent ++ [v], vals := vs } :: F) cur := by
    refine hinj.head rfl rfl ?_
    simp only [hvals, List.length_append, List.length_cons, List.length_nil]
    omega
  have hleft := h.left_concat (v := v) hF hsent
  have hcnts := h.compCnts_tail hx
  have hbl := h.len b (by simp [hF])
  have hreg := h.burstLen
  simp only [Flights.undrained, hF, h0, if_false, List.tail_cons] at hreg
  rw [Fifo.dropIf_eq_some] at hq
  by_cases hlast : s.drainCnt - 1 = 0
  · -- the last element: the burst is complete
    have hone : b.len - b.sent.length = 1 := by
      rw [eq_zero_iff_toNat, hsub] at hlast
      omega
    obtain rfl : vs = [] := List.eq_nil_of_length_eq_zero (by omega)
    simp only [hone, decide_true, if_true] at hlabels'
    simp only [hlast, decide_true, if_true] at hq
    obtain ⟨y, hq⟩ := hq
    refine ⟨{ V with
        past := V.past ++ [{ b with sent := b.sent ++ [v], vals := [] }]
        flying := F
        queue := Function.update V.queue b.name xs
        answers := V.answers ++ [(b.idx, v)] },
      { calls := ?_
        entered := ?_
        left := ?_
        past := fun c hc => ?_
        waiting := h.waiting
        len := fun c hc => h.len c ?_
        names := ?_
        inFlight := ?_
        loadIdxs := ⟨cur, hcur, hinj'.tail ?_⟩
        drained := ⟨[], ?_, hlabels'⟩
        burstLen := fun c hc => hreg c ?_
        transit := htake.leave rfl
        compCnts := hcnts
        holds := hholds.deq hx }⟩
    · rw [h.calls, hF]
      simp [Burst.call]
    · rw [h.entered, hF]
      simp [Burst.entries, hvals]
    · rw [hleft]
      simp [Burst.exits, flatMap_exits_eq_nil hsent]
    · rcases List.mem_append.mp hc with hc | hc
      · exact h.past c hc
      · rw [List.mem_singleton.mp hc]
        refine ⟨?_, rfl⟩
        simp only [List.length_append, List.length_singleton]
        omega
    · rw [hF]
      exact List.mem_cons_of_mem _ hc
    · have hchain := h.names
      rw [hF] at hchain
      exact hchain.tail
    · rw [h.inFlight, hF] at hq
      exact (List.cons.inj hq).2.symm
    · simp only [Burst.Full, List.length_append, List.length_singleton, List.length_nil]
      omega
    · simp only [hlast]
      exact .idle hsent
    · simpa only [Flights.undrained, hlast, if_true] using hc
  · have hmany : b.len - b.sent.length ≠ 1 := by
      rw [eq_zero_iff_toNat, hsub] at hlast
      omega
    simp only [hmany, decide_false, Bool.false_eq_true, if_false] at hlabels'
    simp only [hlast, decide_false, Bool.false_eq_true, if_false] at hq
    refine ⟨{ V with
        flying := { b with sent := b.sent ++ [v], vals := vs } :: F
        queue := Function.update V.queue b.name xs
        answers := V.answers ++ [(b.idx, v)] },
      { calls := ?_
        entered := ?_
        left := ?_
        past := h.past
        waiting := h.waiting
        len := fun c hc => ?_
        names := ?_
        inFlight := ?_
        loadIdxs := ⟨cur, hcur, hinj'⟩
        drained := ⟨[b.idx], .busy hsent ?_ ?_, hlabels'⟩
        burstLen := fun c hc => hreg c ?_
        transit := htake
        compCnts := hcnts
        holds := hholds.deq hx }⟩
    · rw [h.calls, hF]
      simp [Burst.call]
    · rw [h.entered, hF]
      simp [Burst.entries, hvals]
    · rw [hleft]
      simp [Burst.exits, flatMap_exits_eq_nil hsent]
    · rcases List.mem_cons.mp hc with rfl | hc
      · exact hbl
      · exact h.len c (by rw [hF]; exact List.mem_cons_of_mem _ hc)
    · have hchain := h.names
      rw [hF] at hchain
      exact hchain
    · rw [hq, h.inFlight, hF]
      rfl
    · rw [eq_zero_iff_toNat] at hlast
      simp only
      omega
    · simp only [List.length_append, List.length_singleton]
      omega
    · simpa only [Flights.undrained, hlast, if_false, List.tail_cons] using hc

/-- Rule `drain_req`. -/
lemma Carries.drainReq (h : Carries L s V) (hs : s.drainReq = some s') : ∃ V', Carries L s' V' := by
  simp only [BurstFunnel.drainReq, bind, pure, Option.bind_eq_some_iff, Prod.exists,
    Fifo.first_eq_some, Option.ite_none_right_eq_some, Option.some.injEq] at hs
  obtain ⟨i, ν, ⟨es, hfly⟩, hcnt, p, hp, q, hq, buff, hbuff, rfl⟩ := hs
  by_cases h0 : s.drainCnt = 0
  · simp only [h0, decide_true, if_true] at hp hq ⊢
    obtain ⟨hreg, h₁⟩ := h.beginDrain h0 hfly hp
    exact h₁.drain (e := (i, ν)) hreg hfly hcnt hq hbuff
  · have hps : p = s.drainRename := by
      rw [Fifo.enqIf_eq_some] at hp
      simp only [h0, decide_false, Bool.false_eq_true, if_false, List.append_nil] at hp
      exact Fifo.ext hp.2
    simp only [h0, if_false] at hq ⊢
    rw [hps]
    exact h.drain (e := (i, ν)) h0 hfly hcnt hq hbuff

/-- Rule `drain_resp`. -/
lemma Carries.drainResp (h : Carries L s V) (hs : s.drainResp = some s') :
    ∃ V', Carries L s' V' := by
  simp only [BurstFunnel.drainResp, bind, pure, Option.bind_eq_some_iff, Prod.exists,
    Fifo.first_eq_some, Fifo.enq_eq_some, Option.some.injEq] at hs
  obtain ⟨v, last, buff, hbuff, i, ⟨is, hname⟩, p, hp, exitData, ⟨-, hexit⟩, rfl⟩ := hs
  obtain ⟨hholds, hresp⟩ := h.holds.firstResp hbuff
  obtain ⟨rest, hdrain, hlabels⟩ := h.drained
  rw [hresp] at hlabels
  obtain ⟨j, js, ys, hjs, hys, hlabels'⟩ := hlabels.head
  obtain ⟨rfl, rfl⟩ : j = i ∧ js = is := by
    rw [hname] at hjs
    simpa [eq_comm] using hjs
  refine ⟨{ V with answers := ys }, { h with
    left := ?_
    drained := ⟨rest, hdrain, ?_⟩
    holds := hholds }⟩
  · have hleft := h.left
    rw [hys] at hleft
    rw [hexit, List.append_assoc]
    exact hleft
  · rw [Fifo.dropIf_eq_some] at hp
    cases last with
    | false =>
      simp only [Bool.false_eq_true, if_false] at hp hlabels'
      rw [hp]
      exact hlabels'
    | true =>
      simp only [if_true] at hp hlabels'
      obtain ⟨y, hp⟩ := hp
      rw [hname] at hp
      rw [← (List.cons.inj hp).2]
      exact hlabels'

/-- `dataOut.deq`. -/
lemma Carries.deq (h : Carries L s V) {x : Fin k × BitVec w} (hs : s.deq = some (x, s')) :
    Carries { L with left := L.left ++ [x] } s' V := by
  simp only [BurstFunnel.deq, bind, pure, Option.bind_eq_some_iff, Prod.exists, Fifo.deq_eq_some,
    Option.some.injEq, Prod.mk.injEq] at hs
  obtain ⟨i, v, exitData, hexit, rfl, rfl⟩ := hs
  refine { h with left := ?_ }
  have hleft := h.left
  rw [hexit] at hleft
  rw [List.append_assoc]
  exact hleft

/-! ## What comes out -/

/-- The elements from input `i`, of elements with their inputs. -/
def fromInput {α : Type} (es : List (Fin k × α)) (i : Fin k) : List α :=
  (es.filter fun e => e.1 = i).map Prod.snd

@[simp] lemma fromInput_append {α : Type} (es fs : List (Fin k × α)) (i : Fin k) :
    fromInput (es ++ fs) i = fromInput es i ++ fromInput fs i := by
  simp [fromInput]

lemma fromInput_cons {α : Type} (x : α) (es : List (Fin k × α)) (i j : Fin k) :
    fromInput ((i, x) :: es) j = (if i = j then [x] else []) ++ fromInput es j := by
  by_cases hij : i = j
  · simp [fromInput, hij]
  · simp [fromInput, hij]

lemma fromInput_map {α : Type} (vs : List α) (i j : Fin k) :
    fromInput (vs.map fun v => (i, v)) j = if i = j then vs else [] := by
  induction vs with
  | nil => simp [fromInput]
  | cons v vs ih =>
    by_cases hij : i = j
    · simp only [hij, if_true] at ih ⊢
      simpa [fromInput] using ih
    · simp [fromInput, hij]

/-- Bursts whose elements entered in turn: when a burst is not complete, no element of a later one has
entered. -/
def InTurn : List (Burst k w) → Prop
  | [] => True
  | b :: B => (b.Full ∧ InTurn B) ∨
      (b.sent.length + b.vals.length ≤ b.len ∧ ∀ c ∈ B, c.sent = [] ∧ c.vals = [])

lemma inTurn_of_empty {B : List (Burst k w)} (h : ∀ c ∈ B, c.sent = [] ∧ c.vals = []) : InTurn B := by
  cases B with
  | nil => trivial
  | cons b B =>
    refine .inr ⟨?_, fun c hc => h c (List.mem_cons_of_mem _ hc)⟩
    obtain ⟨h₁, h₂⟩ := h b List.mem_cons_self
    simp [h₁, h₂]

lemma inTurn_append {A B : List (Burst k w)} (hA : ∀ b ∈ A, b.Full) (hB : InTurn B) :
    InTurn (A ++ B) := by
  induction A with
  | nil => exact hB
  | cons b A ih =>
    exact .inl ⟨hA b List.mem_cons_self, ih fun c hc => hA c (List.mem_cons_of_mem _ hc)⟩

/-- Of two lists of bursts in turn, either the first are complete or of the others none has begun. -/
lemma inTurn_append_cases {A B : List (Burst k w)} (h : InTurn (A ++ B)) :
    InTurn A ∧ ((∀ b ∈ A, b.Full) ∨ ∀ c ∈ B, c.sent = [] ∧ c.vals = []) := by
  induction A with
  | nil => exact ⟨trivial, .inl (by simp)⟩
  | cons b A ih =>
    rcases h with ⟨hfull, h⟩ | ⟨hle, hempty⟩
    · obtain ⟨hA, hcase⟩ := ih h
      refine ⟨.inl ⟨hfull, hA⟩, hcase.imp_left fun hall c hc => ?_⟩
      rcases List.mem_cons.mp hc with rfl | hc
      · exact hfull
      · exact hall c hc
    · exact ⟨.inr ⟨hle, fun c hc => hempty c (List.mem_append_left _ hc)⟩,
        .inr fun c hc => hempty c (List.mem_append_right _ hc)⟩

lemma flatMap_entries_eq_nil {B : List (Burst k w)} (h : ∀ c ∈ B, c.sent = [] ∧ c.vals = []) :
    B.flatMap Burst.entries = [] := by
  rw [List.flatMap_eq_nil_iff]
  intro b hb
  obtain ⟨h₁, h₂⟩ := h b hb
  rw [Burst.entries, h₁, h₂]
  rfl

/-- The elements of the bursts come first in what the calls deal out, if their inputs have these elements
and perhaps more. -/
lemma entries_prefix_deal {B : List (Burst k w)} (h : InTurn B) {st : Fin k → List (BitVec w)}
    (hst : ∀ i, fromInput (B.flatMap Burst.entries) i <+: st i) :
    B.flatMap Burst.entries <+: deal st (B.map Burst.call) := by
  induction B generalizing st with
  | nil => exact List.nil_prefix
  | cons b B ih =>
    simp only [List.flatMap_cons, fromInput_append] at hst
    have hown : b.sent ++ b.vals ++ fromInput (B.flatMap Burst.entries) b.idx <+: st b.idx := by
      simpa [Burst.entries, fromInput_map] using hst b.idx
    rw [List.flatMap_cons, List.map_cons]
    simp only [Burst.call, deal]
    rcases h with ⟨hfull, hB⟩ | ⟨hle, hB⟩
    · have hlen : (b.sent ++ b.vals).length = b.len := by
        rw [List.length_append]
        exact hfull
      obtain ⟨r, hr⟩ := hown
      rw [List.append_assoc] at hr
      have htake : (st b.idx).take b.len = b.sent ++ b.vals := by
        rw [← hr, ← hlen, List.take_left]
      rw [htake]
      refine List.prefix_append_right_inj _ |>.mpr (ih hB fun i => ?_)
      by_cases hi : i = b.idx
      · subst hi
        rw [Function.update_self, ← hr, ← hlen, List.drop_left]
        exact List.prefix_append _ _
      · have hi' := hst i
        rw [Burst.entries, fromInput_map, if_neg fun he => hi he.symm, List.nil_append] at hi'
        rwa [Function.update_of_ne hi]
    · rw [flatMap_entries_eq_nil hB, List.append_nil]
      refine List.IsPrefix.trans ?_ (List.prefix_append _ _)
      refine List.IsPrefix.map _ (List.prefix_take_iff.mpr ⟨?_, by rw [List.length_append]; exact hle⟩)
      exact (List.prefix_append _ _).trans hown

lemma deal_nil (cs : List (Fin k × ℕ)) : deal (fun _ => ([] : List (BitVec w))) cs = [] := by
  induction cs with
  | nil => rfl
  | cons c cs ih =>
    obtain ⟨i, n⟩ := c
    have hst : Function.update (fun _ => ([] : List (BitVec w))) i [] = fun _ => [] :=
      Function.update_eq_self i _
    simp only [deal, List.take_nil, List.map_nil, List.drop_nil, List.nil_append, hst]
    exact ih

/-- What the calls deal out of the elements of their bursts. -/
lemma deal_entries {B : List (Burst k w)} (h : InTurn B) :
    deal (fromInput (B.flatMap Burst.entries)) (B.map Burst.call) = B.flatMap Burst.entries := by
  induction B with
  | nil => rfl
  | cons b B ih =>
    have hown : ∀ i, fromInput ((b :: B).flatMap Burst.entries) i =
        (if b.idx = i then b.sent ++ b.vals else []) ++ fromInput (B.flatMap Burst.entries) i := by
      intro i
      rw [List.flatMap_cons, fromInput_append, Burst.entries, fromInput_map]
    have hself := hown b.idx
    rw [if_pos rfl] at hself
    rw [List.map_cons]
    simp only [Burst.call, deal, hself]
    rcases h with ⟨hfull, hB⟩ | ⟨hle, hB⟩
    · have hlen : (b.sent ++ b.vals).length = b.len := by
        rw [List.length_append]
        exact hfull
      have hrest : Function.update (fromInput ((b :: B).flatMap Burst.entries)) b.idx
          (fromInput (B.flatMap Burst.entries) b.idx) = fromInput (B.flatMap Burst.entries) := by
        funext i
        by_cases hi : i = b.idx
        · subst hi
          rw [Function.update_self]
        · rw [Function.update_of_ne hi, hown, if_neg fun he => hi he.symm, List.nil_append]
      rw [← hlen, List.take_left, List.drop_left, hrest, ih hB]
      rfl
    · have hnil := flatMap_entries_eq_nil hB
      have hlen : (b.sent ++ b.vals).length ≤ b.len := by
        rw [List.length_append]
        exact hle
      have hrest : Function.update (fromInput ((b :: B).flatMap Burst.entries)) b.idx [] =
          fun _ => [] := by
        funext i
        by_cases hi : i = b.idx
        · subst hi
          rw [Function.update_self]
        · rw [Function.update_of_ne hi, hown, if_neg fun he => hi he.symm, hnil]
          rfl
      have hat : fromInput ([] : List (Fin k × BitVec w)) b.idx = [] := rfl
      rw [List.flatMap_cons, hnil, hat, List.append_nil, List.append_nil, List.take_of_length_le hlen,
        List.drop_of_length_le hlen]
      have hdeal := deal_nil (w := w) (B.map Burst.call)
      rw [List.flatMap_cons, hnil, List.append_nil] at hrest
      rw [hrest, hdeal, List.append_nil]
      rfl

/-- The elements entered in the order of the calls. -/
lemma Carries.inTurn (h : Carries L s V) : InTurn (V.past ++ V.flying ++ V.waiting) := by
  rw [List.append_assoc]
  refine inTurn_append (fun b hb => ?_) ?_
  · obtain ⟨h₁, h₂⟩ := h.past b hb
    rw [Burst.Full, h₁, h₂]
    rfl
  · obtain ⟨cur, -, hinj⟩ := h.loadIdxs
    rcases Nat.eq_zero_or_pos s.injCtrl.toNat with h0 | h0
    · rw [h0] at hinj
      exact inTurn_append hinj.of_zero.2 (inTurn_of_empty h.waiting)
    · obtain ⟨G, b, hF, -, hfull, hlast⟩ := hinj.of_pos h0
      rw [hF, List.append_assoc]
      exact inTurn_append hfull (.inr ⟨by omega, h.waiting⟩)

lemma Carries.entered_eq (h : Carries L s V) :
    L.entered = (V.past ++ V.flying ++ V.waiting).flatMap Burst.entries := by
  rw [List.flatMap_append, flatMap_entries_eq_nil h.waiting, List.append_nil, h.entered]

/-- **The elements entered in the order of the calls**, each call taking the next elements of its
input. -/
lemma Carries.deal_entered (h : Carries L s V) : deal (fromInput L.entered) L.calls = L.entered := by
  rw [h.entered_eq, h.calls, deal_entries h.inTurn]

/-- What has been drained is a beginning of what has entered. -/
lemma Carries.exits_prefix (h : Carries L s V) :
    (V.past ++ V.flying).flatMap Burst.exits <+: L.entered := by
  have hpast : V.past.flatMap Burst.exits = V.past.flatMap Burst.entries := by
    refine List.flatMap_congr fun b hb => ?_
    rw [Burst.exits, Burst.entries, (h.past b hb).2, List.append_nil]
  rw [h.entered, List.flatMap_append, List.flatMap_append, hpast]
  refine (List.prefix_append_right_inj _).mpr ?_
  obtain ⟨rest, hdrain, -⟩ := h.drained
  rcases Nat.eq_zero_or_pos s.drainCnt.toNat with h0 | h0
  · rw [h0] at hdrain
    rw [flatMap_exits_eq_nil hdrain.of_zero.2]
    exact List.nil_prefix
  · obtain ⟨b, F, hF, -, hsent, -⟩ := hdrain.of_pos h0
    rw [hF, List.flatMap_cons, List.flatMap_cons, flatMap_exits_eq_nil hsent, List.append_nil,
      Burst.exits, Burst.entries, List.map_append, List.append_assoc]
    exact List.prefix_append _ _

/-- What has come out is a beginning of what has entered. -/
lemma Carries.left_prefix_entered (h : Carries L s V) : L.left <+: L.entered := by
  refine List.IsPrefix.trans ?_ h.exits_prefix
  rw [← h.left]
  exact List.prefix_append _ _

/-- The elements of bursts are labelled with their inputs, as many times as they are long. -/
lemma labels_prefix {B : List (Burst k w)} (h : InTurn B) :
    (B.flatMap Burst.entries).map Prod.fst <+:
      (B.map Burst.call).flatMap fun c => List.replicate c.2 c.1 := by
  induction B with
  | nil => exact List.nil_prefix
  | cons b B ih =>
    have hown : b.entries.map Prod.fst = List.replicate (b.sent.length + b.vals.length) b.idx := by
      rw [Burst.entries, List.map_map, List.eq_replicate_iff]
      refine ⟨by simp, fun i hi => ?_⟩
      obtain ⟨v, -, rfl⟩ := List.mem_map.mp hi
      rfl
    rw [List.flatMap_cons, List.map_append, List.map_cons, List.flatMap_cons, hown]
    rcases h with ⟨hfull, hB⟩ | ⟨hle, hB⟩
    · rw [show b.sent.length + b.vals.length = b.len from hfull]
      exact (List.prefix_append_right_inj _).mpr (ih hB)
    · rw [flatMap_entries_eq_nil hB, List.map_nil, List.append_nil]
      refine List.IsPrefix.trans ?_ (List.prefix_append _ _)
      exact ⟨List.replicate (b.len - (b.sent.length + b.vals.length)) b.idx, by
        rw [List.replicate_append_replicate, Nat.add_sub_of_le hle]
        rfl⟩

/-- **An element leaves with the label of the call it belongs to**: `as` are the calls before, and `r`
elements of the call have left. -/
lemma Carries.label_eq (h : Carries L s V) {as cs : List (Fin k × ℕ)} {c : Fin k × ℕ}
    (hcalls : L.calls = as ++ c :: cs) {xs : List (Fin k × BitVec w)} {x : Fin k × BitVec w} {r : ℕ}
    (hleft : L.left = xs ++ [x]) (hlen : xs.length = (as.map Prod.snd).sum + r) (hr : r < c.2) :
    x.1 = c.1 := by
  have hall : L.entered.map Prod.fst <+: L.calls.flatMap fun c => List.replicate c.2 c.1 := by
    rw [h.entered_eq, h.calls]
    exact labels_prefix h.inTurn
  have hprefix := (h.left_prefix_entered.map Prod.fst).trans hall
  rw [hleft, hcalls, List.map_append, List.flatMap_append, List.flatMap_cons] at hprefix
  have hlabels : (as.flatMap fun c => List.replicate c.2 c.1).length = (as.map Prod.snd).sum := by
    simp [List.length_flatMap]
  have hxs : (xs.map Prod.fst).length = xs.length := List.length_map _
  have hget := hprefix.getElem (i := xs.length) (by simp)
  rw [List.getElem_append_right (by omega), List.getElem_append_right (by omega),
    List.getElem_append_left (by rw [List.length_replicate]; omega)] at hget
  simpa using hget

/-- What has come out, if it is no more than the calls `as` ask for. -/
lemma Carries.left_prefix_calls (h : Carries L s V) {as cs : List (Fin k × ℕ)}
    (hcalls : L.calls = as ++ cs) (hlen : L.left.length ≤ (as.map Prod.snd).sum)
    {st : Fin k → List (BitVec w)} (hst : ∀ i, fromInput L.entered i <+: st i) :
    L.left <+: deal st as := by
  -- the bursts of the calls `as`
  obtain ⟨A, C, hB, rfl, rfl⟩ := List.map_eq_append_iff.mp (h.calls.symm.trans hcalls)
  have hturn := h.inTurn
  have hleft := h.left_prefix_entered
  rw [h.entered_eq, hB] at hleft
  simp only [h.entered_eq, hB] at hst
  rw [hB] at hturn
  obtain ⟨hA, hcase⟩ := inTurn_append_cases hturn
  have hstA : ∀ i, fromInput (A.flatMap Burst.entries) i <+: st i := by
    intro i
    refine List.IsPrefix.trans ?_ (hst i)
    rw [List.flatMap_append, fromInput_append]
    exact List.prefix_append _ _
  refine List.IsPrefix.trans ?_ (entries_prefix_deal hA hstA)
  rw [List.flatMap_append] at hleft
  rcases hcase with hfull | hempty
  · refine List.prefix_of_prefix_length_le hleft (List.prefix_append _ _) ?_
    have hsum : (A.flatMap Burst.entries).length = ((A.map Burst.call).map Prod.snd).sum := by
      rw [List.length_flatMap, List.map_map]
      congr 1
      refine List.map_congr_left fun b hb => ?_
      rw [Burst.entries, List.length_map, List.length_append]
      exact hfull b hb
    omega
  · rwa [flatMap_entries_eq_nil hempty, List.append_nil] at hleft

end BurstFunnel

end Xbsv
