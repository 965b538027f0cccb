import Xbsv.Noc.NocNode

set_option relaxedAutoImplicit false
set_option autoImplicit false

/-!
# Messages arrive

Messages do not tell which host they are from. In the proofs they are labelled with it: then the messages of one host to
one address are the elements of one key, and their route goes down the numbering of the places.

Every message that is under way costs what its place allows, more than two for each bit of a link that it passes, so that
a message that moves on pays for its bits.

## Main definitions

* `Xbsv.Noc.Tracks` — the messages under way, with the hosts they are from.
* `Xbsv.Noc.potential` — a bound on the steps that are left.

## Main results

* `Xbsv.Noc.Tracks.step` — what a step does.
* `Xbsv.Noc.Tracks.exists_step` — as long as there are messages, some rule can fire.
* `Xbsv.Noc.run_spec` — messages arrive in order where they are addressed, and all of them do.
-/

namespace Xbsv

open Rules

namespace NocConfig

variable {V L A : Type} {c : NocConfig V L A} {a : A} {n m : NocPlace V L}

/-- Messages go on to places where they can be seen. -/
lemma not_loose_of_next (h : c.next a n = some m) : c.loose m = false := by
  match n with
  | .inl (.fromHost v) =>
    obtain ⟨q, -, rfl⟩ := Option.map_eq_some_iff.mp h
    rfl
  | .inl (.xp v p q) =>
    rw [next] at h
    split at h
    · cases h
    · cases h
      exact Bool.eq_false_iff.mpr ‹_›
  | .inl (.toHost v) => cases h
  | .inr e =>
    obtain ⟨f, -, hf⟩ := Option.bind_eq_some_iff.mp h
    obtain ⟨q, -, rfl⟩ := Option.map_eq_some_iff.mp hf
    rfl

end NocConfig

namespace Noc

variable {V L A : Type} {c : NocConfig V L A} [DecidableEq V] [DecidableEq L]

/-! ## The bits under way -/

section Bits

variable [Fintype V] [Fintype L] {s s' : Noc c} {n : NocPlace V L} {m : DataMessage A} {e : V × L}

/-- What is left to do for the bits in all links. -/
def bits (s : Noc c) : ℕ := ∑ e, (s.link e).left

/-- A link changes. -/
lemma bits_update (s : Noc c) (e : V × L) (f : SerialFIFO c.serial) :
    bits { s with link := Function.update s.link e f } + (s.link e).left = bits s + f.left :=
  sum_update (fun _ f => f.left) s.link e f

lemma bits_take_link (hs : s.take (.inr e) = some (m, s')) : bits s' + c.serial.width = bits s := by
  simp only [Noc.take, Option.map_eq_some_iff, Prod.exists, Prod.mk.injEq] at hs
  obtain ⟨x, f, hdeq, -, rfl⟩ := hs
  obtain ⟨hle, -, hrx, htx⟩ := SerialFIFO.deq_eq_some hdeq
  have hsum := bits_update s e f
  have hleft : f.left + c.serial.width = (s.link e).left := by
    rw [SerialFIFO.left, SerialFIFO.left, hrx, htx, List.length_drop]
    omega
  omega

lemma bits_take (hs : s.take n = some (m, s')) : bits s' ≤ bits s := by
  cases n with
  | inl b =>
    simp only [Noc.take, Option.map_eq_some_iff, Prod.exists, Prod.mk.injEq] at hs
    obtain ⟨m', q, -, -, rfl⟩ := hs
    exact Nat.le_refl _
  | inr e =>
    have hsum := bits_take_link hs
    omega

/-- A message brings two units for each of its bits. -/
lemma bits_put (hs : s.put m n = some s') : bits s' ≤ bits s + 2 * c.serial.width := by
  cases n with
  | inl b =>
    simp only [Noc.put, Option.map_eq_some_iff] at hs
    obtain ⟨q, -, rfl⟩ := hs
    exact Nat.le_add_right _ _
  | inr e =>
    simp only [Noc.put, Option.map_eq_some_iff] at hs
    obtain ⟨f, henq, rfl⟩ := hs
    obtain ⟨hrx, htx⟩ := SerialFIFO.enq_eq_some henq
    have hsum := bits_update s e f
    have hleft : f.left = (s.link e).left + 2 * c.serial.width := by
      rw [SerialFIFO.left, SerialFIFO.left, hrx, htx, List.length_append, length_bitsOf]
      omega
    omega

end Bits

/-! ## The messages under way -/

variable [DecidableEq A]

/-- The messages of a host to an address. -/
def key (x : V × DataMessage A) : V × A := (x.1, x.2.address)

/-- The messages with their labels: `t` are under way, and `outs` have left the network. -/
structure Tracks (R : Routing c) (tr : List (Event V A)) (s : Noc c) (t : NocPlace V L → List (V × DataMessage A))
    (outs : V × A → List (V × DataMessage A)) : Prop where
  shows : Shows s t
  flow : R.routes.Flow key (fun k => (sentTo tr k.1 k.2).map (Prod.mk k.1)) outs t
  merge : ∀ v, Merge (fun u => (outs (u, R.home v)).map Prod.snd) (acked tr v)
  address_eq : ∀ v, ∀ m ∈ acked tr v, m.address = R.home v

section Tracks

variable {R : Routing c} {tr es : List (Event V A)} {s s₁ s' : Noc c} {t : NocPlace V L → List (V × DataMessage A)}
  {outs : V × A → List (V × DataMessage A)} {n n' : NocPlace V L} {m : DataMessage A} {v : V}

omit [DecidableEq L] in
lemma tracks_init : Tracks R ([] : List (Event V A)) init (fun _ => []) fun _ => [] :=
  ⟨shows_init, Routes.flow_empty, fun _ => .nil, by rintro v m ⟨⟩⟩

/-- A message is sent. -/
lemma Tracks.send (h : Tracks R tr s t outs) (hs : s.put m (.inl (.fromHost v)) = some s') :
    Tracks R (tr ++ [.sent v m]) s' (Routes.push t (.inl (.fromHost v)) (v, m)) outs := by
  refine ⟨h.shows.put rfl hs v, ?_, ?_, ?_⟩
  · have hins : (fun k : V × A => (sentTo (tr ++ [Event.sent v m]) k.1 k.2).map (Prod.mk k.1)) =
        Function.update (fun k => (sentTo tr k.1 k.2).map (Prod.mk k.1)) (key (v, m))
          ((sentTo tr v m.address).map (Prod.mk v) ++ [(v, m)]) := by
      funext ⟨u, a⟩
      rw [sentTo, sent_sent, Function.update_apply, Function.update_apply, key]
      by_cases hu : u = v
      · subst hu
        rw [if_pos rfl, List.filter_append, List.map_append]
        by_cases ha : m.address = a
        · subst ha
          rw [if_pos rfl]
          simp [sentTo]
        · rw [if_neg fun hk => ha (congrArg Prod.snd hk).symm]
          simp [sentTo, ha]
      · rw [if_neg hu, if_neg fun hk => hu (congrArg Prod.fst hk)]
        rfl
    rw [hins]
    exact h.flow.enter rfl
  · rw [acked_sent]
    exact h.merge
  · rw [acked_sent]
    exact h.address_eq

/-- The first message of a place, and what is known of it. -/
lemma Tracks.exists_first (h : Tracks R tr s t outs) (hn : c.loose n = false) (hs : s.take n = some (m, s₁)) :
    ∃ u l, t n = (u, m) :: l ∧ Shows s₁ (Routes.pop t n l) ∧ R.Legal m.address n := by
  obtain ⟨u, l, hl, hshows⟩ := h.shows.take hn hs
  have hleads := h.flow.confined n (u, m) (by rw [hl]; exact List.mem_cons_self)
  exact ⟨u, l, hl, hshows, Routing.legal_of_leads hleads⟩

variable [Fintype V] [Fintype L]

/-- What a message may cost from a place on. -/
def cost (R : Routing c) (n : NocPlace V L) : ℕ := (2 * c.serial.width + 1) * (R.level n + 1)

/-- The messages and the bits under way. -/
def potential (R : Routing c) (s : Noc c) (t : NocPlace V L → List (V × DataMessage A)) : ℕ := load (cost R) t + bits s

omit [DecidableEq V] [DecidableEq L] [DecidableEq A] [Fintype V] [Fintype L] in
lemma lt_cost (R : Routing c) (n : NocPlace V L) : 2 * c.serial.width < cost R n := by
  rw [cost, Nat.mul_succ]
  omega

omit [DecidableEq V] [DecidableEq L] [DecidableEq A] [Fintype V] [Fintype L] in
lemma cost_lt (h : R.level n' < R.level n) : cost R n' + 2 * c.serial.width < cost R n := by
  have hle : (2 * c.serial.width + 1) * (R.level n' + 1 + 1) ≤ (2 * c.serial.width + 1) * (R.level n + 1) :=
    Nat.mul_le_mul_left _ (by omega)
  rw [Nat.mul_succ] at hle
  rw [cost, cost]
  omega

/-- **A message moves on.** -/
lemma Tracks.hop (h : Tracks R tr s t outs) (hn : c.loose n = false) (htake : s.take n = some (m, s₁))
    (hnext : c.next m.address n = some n') (hput : s₁.put m n' = some s') :
    ∃ t', Tracks R tr s' t' outs ∧ potential R s' t' < potential R s t := by
  obtain ⟨u, l, hl, hshows, hlegal⟩ := h.exists_first hn htake
  have hroute : R.routes.next (key (u, m)) n = some n' := (Routing.routes_next hlegal).trans hnext
  refine ⟨_, ⟨hshows.put (NocConfig.not_loose_of_next hnext) hput u, h.flow.hop hl hroute, h.merge, h.address_eq⟩, ?_⟩
  have hpush := load_push (cost R) (t := Routes.pop t n l) (n := n') (x := (u, m))
  have hpop := load_pop (cost R) hl
  have hcost := cost_lt (R.legal_next hlegal hnext).2
  have hbits := (bits_put hput).trans (Nat.add_le_add_right (bits_take htake) _)
  rw [potential, potential]
  omega

/-- **A message is thrown away**, and what is left of it is at most its bits in a link. Nobody has its address. -/
lemma Tracks.drop (h : Tracks R tr s t outs) (hn : c.loose n = false) (htake : s.take n = some (m, s₁))
    (hnext : c.next m.address n = none) (hhost : ∀ v, n ≠ .inl (.toHost v)) (hs' : ∀ t', Shows s₁ t' → Shows s' t')
    (hbits : bits s' ≤ bits s₁ + 2 * c.serial.width) :
    ∃ t' outs', Tracks R tr s' t' outs' ∧ potential R s' t' < potential R s t := by
  obtain ⟨u, l, hl, hshows, hlegal⟩ := h.exists_first hn htake
  have hroute : R.routes.next (key (u, m)) n = none := (Routing.routes_next hlegal).trans hnext
  have haddr : ∀ v, m.address ≠ R.home v := by
    intro v hv
    rw [hv] at hlegal hnext
    obtain ⟨w, rfl⟩ := R.legal_last hlegal hnext
    exact hhost w rfl
  refine ⟨_, _, ⟨hs' _ hshows, h.flow.leave hl hroute, fun v => ?_, h.address_eq⟩, ?_⟩
  · have houts (w : V) : Function.update outs (key (u, m)) (outs (key (u, m)) ++ [(u, m)]) (w, R.home v) =
        outs (w, R.home v) :=
      Function.update_of_ne (fun he => haddr v (congrArg Prod.snd he).symm) _ _
    simp only [houts]
    exact h.merge v
  · have hpop := load_pop (cost R) hl
    have hcost := lt_cost R n
    have hle := bits_take htake
    rw [potential, potential]
    omega

/-- **A message arrives**, at the node with its address. -/
lemma Tracks.arrive (h : Tracks R tr s t outs) (htake : s.take (.inl (.toHost v)) = some (m, s')) :
    ∃ t' outs', Tracks R (tr ++ [.acked v m]) s' t' outs' ∧ potential R s' t' < potential R s t := by
  obtain ⟨u, l, hl, hshows, hlegal⟩ := h.exists_first rfl htake
  have hroute : R.routes.next (key (u, m)) (.inl (.toHost v)) = none := Routing.routes_next hlegal
  have haddr := R.legal_toHost hlegal
  refine ⟨_, Function.update outs (key (u, m)) (outs (key (u, m)) ++ [(u, m)]),
    ⟨hshows, ?_, fun v' => ?_, fun v' m' hm' => ?_⟩, ?_⟩
  · simp only [sentTo, sent_acked]
    exact h.flow.leave hl hroute
  · rw [acked_acked, Function.update_apply]
    by_cases hv : v' = v
    · subst hv
      rw [if_pos rfl]
      have houts : (fun w => (Function.update outs (key (u, m)) (outs (key (u, m)) ++ [(u, m)]) (w, R.home v')).map Prod.snd) =
          Function.update (fun w => (outs (w, R.home v')).map Prod.snd) u ((outs (u, R.home v')).map Prod.snd ++ [m]) := by
        funext w
        rw [key, haddr, Function.update_apply, Function.update_apply]
        by_cases hw : w = u
        · subst hw
          rw [if_pos rfl, if_pos rfl, List.map_append]
          rfl
        · rw [if_neg hw, if_neg fun he => hw (congrArg Prod.fst he)]
      rw [houts]
      exact (h.merge v').concat u m
    · rw [if_neg hv]
      have houts (w : V) : Function.update outs (key (u, m)) (outs (key (u, m)) ++ [(u, m)]) (w, R.home v') =
          outs (w, R.home v') := by
        refine Function.update_of_ne (fun he => hv ?_) _ _
        exact R.home_injective ((congrArg Prod.snd he).trans haddr)
      simp only [houts]
      exact h.merge v'
  · rw [acked_acked, Function.update_apply] at hm'
    split at hm'
    · rename_i hv
      subst hv
      rcases List.mem_append.mp hm' with hm' | hm'
      · exact h.address_eq _ _ hm'
      · rw [List.mem_singleton.mp hm', haddr]
    · exact h.address_eq _ _ hm'
  · have hpop := load_pop (cost R) hl
    have hcost := lt_cost R (.inl (.toHost v))
    have hle := bits_take htake
    rw [potential, potential]
    omega

omit [DecidableEq L] in
/-- Nothing happens to the messages. -/
lemma Tracks.idle (h : Tracks R tr s t outs) (hs : Shows s' t) (hbits : bits s' < bits s) :
    ∃ t' outs', Tracks R tr s' t' outs' ∧ potential R s' t' < potential R s t :=
  ⟨t, outs, ⟨hs, h.flow, h.merge, h.address_eq⟩, by rw [potential, potential]; omega⟩

/-- **What a step does**: there are still labels for the messages, and unless a message was sent there is less to do. -/
lemma Tracks.step (h : Tracks R tr s t outs) {a : Action V L A} (hs : s.step a = some (s', es)) :
    ∃ t' outs', Tracks R (tr ++ es) s' t' outs' ∧
      (a.quiet = true → sent (tr ++ es) = sent tr ∧ potential R s' t' < potential R s t) := by
  cases a with
  | send v m =>
    simp only [Noc.step, Option.map_eq_some_iff, Prod.mk.injEq] at hs
    obtain ⟨s₁, hput, rfl, rfl⟩ := hs
    exact ⟨_, _, h.send hput, fun hq => by cases hq⟩
  | distribute v p =>
    simp only [Noc.step, bind, Option.bind_eq_some_iff, Prod.exists] at hs
    obtain ⟨n, hin, m, s₁, htake, hs⟩ := hs
    have hnext := NocConfig.next_of_switchin hin m.address
    have hloose := NocConfig.not_loose_of_switchin hin
    cases hturn : c.turn v p m.address with
    | none =>
      simp only [hturn, pure, Option.some.injEq, Prod.mk.injEq] at hs
      obtain ⟨rfl, rfl⟩ := hs
      rw [hturn, Option.map_none] at hnext
      have hhost (w : V) : n ≠ .inl (.toHost w) := by
        rintro rfl
        cases p with
        | none => cases hin
        | some l =>
          obtain ⟨e, -, he⟩ := Option.map_eq_some_iff.mp hin
          cases he
      obtain ⟨t', outs', ht', hlt⟩ := h.drop hloose htake hnext hhost (fun _ h => h) (Nat.le_add_right _ _)
      rw [List.append_nil]
      exact ⟨t', outs', ht', fun _ => ⟨rfl, hlt⟩⟩
    | some q =>
      simp only [hturn, Option.map_eq_some_iff, Prod.mk.injEq] at hs
      obtain ⟨s₂, hput, rfl, rfl⟩ := hs
      rw [hturn, Option.map_some] at hnext
      obtain ⟨t', ht', hlt⟩ := h.hop hloose htake hnext hput
      rw [List.append_nil]
      exact ⟨t', outs, ht', fun _ => ⟨rfl, hlt⟩⟩
  | arbitrate v q p =>
    simp only [Noc.step, bind, Option.bind_eq_some_iff, Prod.exists, Option.map_eq_some_iff, Prod.mk.injEq] at hs
    obtain ⟨m, s₁, htake, s₂, hput, rfl, rfl⟩ := hs
    rw [List.append_nil]
    cases hloose : c.loose (switchout v q) with
    | false =>
      have hnext : c.next m.address (.inl (.xp v p q)) = some (switchout v q) := by
        rw [NocConfig.next, hloose]
        rfl
      obtain ⟨t', ht', hlt⟩ := h.hop rfl htake hnext hput
      exact ⟨t', outs, ht', fun _ => ⟨rfl, hlt⟩⟩
    | true =>
      -- the message leaves the network over the edge
      have hnext : c.next m.address (.inl (.xp v p q)) = none := by
        rw [NocConfig.next, hloose]
        rfl
      cases q with
      | none => cases hloose
      | some l =>
        have hput' := hput
        simp only [switchout, Noc.put, Option.map_eq_some_iff] at hput'
        obtain ⟨f, -, rfl⟩ := hput'
        obtain ⟨t', outs', ht', hlt⟩ := h.drop rfl htake hnext (by rintro w ⟨⟩) (fun _ h => h.update_loose hloose f)
          (bits_put hput)
        exact ⟨t', outs', ht', fun _ => ⟨rfl, hlt⟩⟩
  | movebit e =>
    simp only [Noc.step] at hs
    split at hs
    · rename_i hedge
      rw [Bool.and_eq_true] at hedge
      simp only [Option.map_eq_some_iff, Prod.mk.injEq] at hs
      obtain ⟨f, htoss, rfl, rfl⟩ := hs
      obtain ⟨b, htx, hrx⟩ := SerialFIFO.toss_eq_some htoss
      have hsum := bits_update s e f
      simp only [SerialFIFO.left, htx, hrx, List.length_cons] at hsum
      obtain ⟨t', outs', ht', hlt⟩ := h.idle (h.shows.update_loose hedge.2 f) (by omega)
      rw [List.append_nil]
      exact ⟨t', outs', ht', fun _ => ⟨rfl, hlt⟩⟩
    · simp only [Option.map_eq_some_iff, Prod.mk.injEq] at hs
      obtain ⟨f, hmove, rfl, rfl⟩ := hs
      obtain ⟨b, htx, hrx⟩ := SerialFIFO.movebits_eq_some hmove
      have hsum := bits_update s e f
      simp only [SerialFIFO.left, htx, hrx, List.length_cons, List.length_append, List.length_nil] at hsum
      obtain ⟨t', outs', ht', hlt⟩ := h.idle (h.shows.movebits hmove) (by omega)
      rw [List.append_nil]
      exact ⟨t', outs', ht', fun _ => ⟨rfl, hlt⟩⟩
  | discard e =>
    simp only [Noc.step, Option.ite_none_right_eq_some, Option.map_eq_some_iff, Prod.exists, Prod.mk.injEq,
      Bool.and_eq_true] at hs
    obtain ⟨⟨-, hloose⟩, m, s₁, htake, rfl, rfl⟩ := hs
    have hbits := bits_take_link htake
    have hpos := c.serial.width_pos
    simp only [Noc.take, Option.map_eq_some_iff, Prod.exists, Prod.mk.injEq] at htake
    obtain ⟨x, f, -, -, rfl⟩ := htake
    obtain ⟨t', outs', ht', hlt⟩ := h.idle (h.shows.update_loose hloose f) (by omega)
    rw [List.append_nil]
    exact ⟨t', outs', ht', fun _ => ⟨rfl, hlt⟩⟩
  | ack v =>
    simp only [Noc.step, Option.map_eq_some_iff, Prod.exists, Prod.mk.injEq] at hs
    obtain ⟨m, s₁, htake, rfl, rfl⟩ := hs
    obtain ⟨t', outs', ht', hlt⟩ := h.arrive htake
    exact ⟨t', outs', ht', fun _ => ⟨sent_acked _ _ _, hlt⟩⟩

/-! ## Nothing gets stuck -/

omit [DecidableEq A] [Fintype V] [Fintype L] in
/-- There is a message to take from a buffer that is not empty. -/
lemma Shows.exists_take (h : Shows s t) {b : NocBuffer V L} (hb : t (.inl b) ≠ []) :
    ∃ m s₁, s.take (.inl b) = some (m, s₁) := by
  obtain ⟨⟨u, m⟩, l, hl⟩ := List.exists_cons_of_ne_nil hb
  have hitems := h.buffer_eq b
  rw [hl, List.map_cons] at hitems
  obtain ⟨q, hdeq, -⟩ := Fifo.exists_deq hitems
  exact ⟨m, _, by rw [Noc.take, hdeq, Option.map_some]⟩

omit [DecidableEq A] [Fintype V] [Fintype L] in
/-- There is room in a place without messages. -/
lemma Shows.exists_put (h : Shows s t) (hn : c.loose n = false) (hnil : t n = []) (m : DataMessage A) :
    ∃ s', s.put m n = some s' := by
  cases n with
  | inl b =>
    have hroom : (s.buffer b).items.length < 4 := by
      rw [h.buffer_eq, hnil]
      exact Nat.zero_lt_succ _
    obtain ⟨q, henq, -⟩ := Fifo.exists_enq hroom m
    exact ⟨_, by rw [Noc.put, henq, Option.map_some]⟩
  | inr e =>
    have hbits := h.link_holds e hn
    rw [hnil] at hbits
    obtain ⟨f, henq⟩ := SerialFIFO.exists_enq (List.append_eq_nil_iff.mp hbits).2 (c.pack m)
    exact ⟨_, by rw [Noc.put, henq, Option.map_some]⟩

/-- Some rule other than `send` can fire. -/
def CanStep (s : Noc c) : Prop := ∃ a s' es, Action.quiet a = true ∧ s.step a = some (s', es)

omit [DecidableEq A] [Fintype V] [Fintype L] in
/-- Loose ends are emptied. -/
lemma canStep_of_loose {e : V × L} (he : c.loose (.inr e) = true) (h : (s.link e).tx.items ≠ []) : CanStep s := by
  cases hb : c.tossesBits with
  | true =>
    obtain ⟨f, hf⟩ := SerialFIFO.exists_toss h
    exact ⟨.movebit e, _, _, rfl, by rw [Noc.step, hb, he, hf]; rfl⟩
  | false =>
    rcases SerialFIFO.exists_movebits h with ⟨f, hf⟩ | hle
    · exact ⟨.movebit e, _, _, rfl, by rw [Noc.step, hb, hf]; rfl⟩
    · obtain ⟨x, f, hf⟩ := SerialFIFO.exists_deq hle
      exact ⟨.discard e, _, _, rfl, by rw [Noc.step, hb, he, Noc.take, hf]; rfl⟩

omit [Fintype V] [Fintype L] in
/-- A message that is where a port takes its messages can go on, when the places below are empty. -/
lemma Tracks.canStep_distribute (h : Tracks R tr s t outs) {p : Option L} (hin : c.switchin v p = some n)
    (hlow : ∀ n', R.level n' < R.level n → t n' = []) (htake : s.take n = some (m, s₁)) : CanStep s := by
  have hloose := NocConfig.not_loose_of_switchin hin
  obtain ⟨u, l, hl, hshows, hlegal⟩ := h.exists_first hloose htake
  have hnext := NocConfig.next_of_switchin hin m.address
  cases hturn : c.turn v p m.address with
  | none => exact ⟨.distribute v p, s₁, [], rfl, by simp [Noc.step, hin, htake, hturn]⟩
  | some q =>
    rw [hturn, Option.map_some] at hnext
    have hlt := (R.legal_next hlegal hnext).2
    have hnil : Routes.pop t n l (.inl (.xp v p q)) = [] := by
      rw [Routes.pop, Function.update_of_ne (by rintro rfl; omega), hlow _ hlt]
    obtain ⟨s', hput⟩ := hshows.exists_put rfl hnil m
    exact ⟨.distribute v p, s', [], rfl, by simp [Noc.step, hin, htake, hturn, hput]⟩

omit [Fintype V] [Fintype L] in
/-- **Messages go on**: where there are messages, and none below, some rule can fire. -/
lemma Tracks.exists_step (h : Tracks R tr s t outs) (hne : t n ≠ [])
    (hlow : ∀ n', R.level n' < R.level n → t n' = []) : CanStep s := by
  match n with
  | .inl (.toHost v) =>
    obtain ⟨m, s₁, htake⟩ := h.shows.exists_take hne
    exact ⟨.ack v, s₁, [.acked v m], rfl, by rw [Noc.step, htake, Option.map_some]⟩
  | .inl (.fromHost v) =>
    obtain ⟨m, s₁, htake⟩ := h.shows.exists_take hne
    exact h.canStep_distribute (v := v) (p := none) rfl hlow htake
  | .inl (.xp v p q) =>
    obtain ⟨m, s₁, htake⟩ := h.shows.exists_take hne
    obtain ⟨u, l, hl, hshows, hlegal⟩ := h.exists_first rfl htake
    -- there is room at the other side of the crossbar, or a loose end is to be emptied
    suffices hroom : CanStep s ∨ ∃ s', s₁.put m (switchout v q) = some s' by
      rcases hroom with hstep | ⟨s', hput⟩
      · exact hstep
      · exact ⟨.arbitrate v q p, s', [], rfl, by simp [Noc.step, htake, hput]⟩
    cases hloose : c.loose (switchout v q) with
    | false =>
      have hnext : c.next m.address (.inl (.xp v p q)) = some (switchout v q) := by
        rw [NocConfig.next, hloose]
        rfl
      have hlt := (R.legal_next hlegal hnext).2
      refine .inr (hshows.exists_put hloose ?_ m)
      rw [Routes.pop, Function.update_of_ne (fun he => by rw [he] at hlt; omega), hlow _ hlt]
    | true =>
      cases q with
      | none => cases hloose
      | some d =>
        by_cases htx : (s.link (v, d)).tx.items = []
        · have hlink : s₁.link = s.link := by
            simp only [Noc.take, Option.map_eq_some_iff, Prod.mk.injEq] at htake
            obtain ⟨r, -, -, rfl⟩ := htake
            rfl
          rw [← hlink] at htx
          obtain ⟨f, henq⟩ := SerialFIFO.exists_enq htx (c.pack m)
          exact .inr ⟨_, by rw [switchout, Noc.put, henq, Option.map_some]⟩
        · exact .inl (canStep_of_loose hloose htx)
  | .inr e =>
    have hloose : c.loose (.inr e) = false := by
      cases hl : c.loose (.inr e) with
      | false => rfl
      | true => exact absurd (h.shows.loose_eq e hl) hne
    obtain ⟨v, l, hin⟩ := NocConfig.exists_switchin hloose
    by_cases hrx : (s.link e).rx.items.length < c.serial.width
    · have hmap : (t (.inr e)).map (fun x => c.pack x.2) ≠ [] := fun hnil => hne (List.map_eq_nil_iff.mp hnil)
      obtain ⟨f, hf⟩ := (h.shows.link_holds e hloose).exists_movebits hmap hrx
      exact ⟨.movebit e, _, _, rfl, by rw [Noc.step, hloose, Bool.and_false, hf]; rfl⟩
    · obtain ⟨x, f, hf⟩ := SerialFIFO.exists_deq (Nat.le_of_not_lt hrx)
      have htake : s.take (.inr e) = some (c.unpack x, { s with link := Function.update s.link e f }) := by
        rw [Noc.take, hf, Option.map_some]
      exact h.canStep_distribute hin hlow htake

omit [Fintype V] [Fintype L] in
/-- Where no rule can fire there are no messages. -/
lemma Tracks.empty_of_stuck (h : Tracks R tr s t outs) (hstuck : ¬CanStep s) : ∀ n, t n = [] := by
  intro n
  induction hl : R.level n using Nat.strongRecOn generalizing n with
  | ind k ih =>
    subst hl
    by_contra hne
    exact hstuck (h.exists_step hne fun n' hlt => ih _ hlt n' rfl)

end Tracks

/-! ## Runs -/

variable [Fintype V] [Fintype L]

/-- **Messages arrive**: in every run the messages that are acknowledged at a node are those for it, and an interleaving of
the beginnings of what the hosts sent there. Every continuation in which nothing more is sent ends, with all messages for
the node acknowledged. -/
theorem run_spec (R : Routing c) {tr : List (Event V A)} {s : Noc c} (h : (noc c).Reaches init tr s) :
    (∀ v, ∀ m ∈ acked tr v, m.address = R.home v) ∧
      (∀ v, ∃ ins, (∀ u, ins u <+: sentTo tr u (R.home v)) ∧ Merge ins (acked tr v)) ∧
      ((noc c).guard fun _ a => a.quiet = true).Ends
        (fun tr' _ => ∀ v, Merge (fun u => sentTo tr u (R.home v)) (acked tr' v)) tr s := by
  have hsnd (tr : List (Event V A)) (u : V) (a : A) :
      ((sentTo tr u a).map (Prod.mk u)).map Prod.snd = sentTo tr u a := by
    rw [List.map_map]
    exact List.map_id _
  obtain ⟨t, outs, ht⟩ : ∃ t outs, Tracks R tr s t outs :=
    h.invariant (I := fun tr s => ∃ t outs, Tracks R tr s t outs) ⟨_, _, tracks_init⟩ fun {tr s a s' es} hI hs => by
      obtain ⟨t, outs, ht⟩ := hI
      obtain ⟨t', outs', ht', -⟩ := ht.step hs
      exact ⟨t', outs', ht'⟩
  refine ⟨ht.address_eq, fun v => ⟨_, fun u => ?_, ht.merge v⟩,
    RuleSystem.Ends.of_bound (I := fun k us s => ∃ t outs, Tracks R us s t outs ∧ sent us = sent tr ∧ potential R s t = k)
      ?_ ?_ ⟨t, outs, ht, rfl, rfl⟩⟩
  · have hprefix := List.IsPrefix.map Prod.snd (ht.flow.outs_prefix (u, R.home v))
    rw [hsnd] at hprefix
    exact hprefix
  · rintro k us s a s' es ⟨t, outs, ht, hsent, rfl⟩ hs
    obtain ⟨ha, hs⟩ := RuleSystem.guard_step.mp hs
    obtain ⟨t', outs', ht', hquiet⟩ := ht.step hs
    obtain ⟨hsame, hlt⟩ := hquiet ha
    exact ⟨_, hlt, t', outs', ht', hsame.trans hsent, rfl⟩
  · rintro k us s ⟨t, outs, ht, hsent, -⟩ hstuck v
    have hempty := ht.empty_of_stuck fun hcan => by
      obtain ⟨a, s', es, ha, hs⟩ := hcan
      have hguard := RuleSystem.guard_step (M := noc c) (C := fun _ a => a.quiet = true).mpr ⟨ha, hs⟩
      rw [hstuck a] at hguard
      cases hguard
    have hmerge := ht.merge v
    have houts (u : V) : (outs (u, R.home v)).map Prod.snd = sentTo tr u (R.home v) := by
      rw [ht.flow.outs_eq hempty, hsnd, sentTo, hsent, sentTo]
    simp only [houts] at hmerge
    exact hmerge

end Noc

end Xbsv
