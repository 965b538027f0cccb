import Xbsv.Engine.MemreadEngine
import Xbsv.Engine.MemwriteEngine

set_option relaxedAutoImplicit false
set_option autoImplicit false

/-!
# The index of the loader

`loadIdx` goes round the servers of an engine. It is a counter of `TLog#(numServers)` bits, and the two
rules that move it on add one and never compare it with the number of servers: it goes back to 0 only
when it overflows. So it is always the index of a server where every value of the counter is, which is
when the number of servers is a power of two. Otherwise an engine without commands gets to an index that
is not one of a server.

## Main results

* `Xbsv.forall_lt_iff` — when all values of the counter are indices of servers.
* `Xbsv.Loader.reaches_loadIdx` — an engine without commands goes through all indices.
* `Xbsv.loadIdx_lt_iff` — when the engines keep to their servers.
-/

namespace Xbsv

open Rules

/-- All values of a counter of `tlog n` bits are below `n` exactly when `n` is a power of two. -/
lemma forall_lt_iff (n : ℕ) : (∀ idx : BitVec (tlog n), idx.toNat < n) ↔ ∃ k, n = 2 ^ k := by
  constructor
  · intro h
    have hlast := h (BitVec.ofNat _ (2 ^ tlog n - 1))
    have hpos := Nat.two_pow_pos (tlog n)
    have hle := le_two_pow_tlog n
    rw [BitVec.toNat_ofNat, Nat.mod_eq_of_lt (by omega)] at hlast
    exact ⟨tlog n, by omega⟩
  · rintro ⟨k, rfl⟩ idx
    calc idx.toNat < 2 ^ tlog (2 ^ k) := idx.isLt
      _ = 2 ^ k := by rw [tlog_two_pow]

namespace Loader

variable {cmdQDepth numServers : ℕ} {l : Loader cmdQDepth numServers}

/-- Where the server has no command, rule `load_ctxt_a` moves on. -/
lemma loadCtxtA_of_none (hp : l.loadInProgress = false) (ho : ∀ i, l.outs1 i = 0)
    (hi : l.loadIdx.toNat < numServers) :
    l.loadCtxtA = some { l with loadIdx := l.loadIdx + 1 } := by
  have hserver : serverOf numServers l.loadIdx = some ⟨l.loadIdx.toNat, hi⟩ := by
    unfold serverOf
    rw [dif_pos hi]
  unfold loadCtxtA
  rw [hp, hserver]
  simp [ho]

/-- **An engine without commands goes through all indices**: in any system with rule `load_ctxt_a`, from
any state whose loader has no commands and begins at index 0. -/
lemma reaches_loadIdx {σ α ε : Type*} {M : RuleSystem σ α ε} (f : Loader cmdQDepth numServers → σ)
    (a : α) (hstep : ∀ l l', l.loadCtxtA = some l' → M.step (f l) a = some (f l', []))
    (hp : l.loadInProgress = false) (ho : ∀ i, l.outs1 i = 0) (h0 : l.loadIdx = 0) {m : ℕ}
    (hm : m ≤ numServers) (hlt : numServers < 2 ^ tlog numServers) :
    M.Reaches (f l) [] (f { l with loadIdx := BitVec.ofNat _ m }) := by
  induction m with
  | zero =>
    have hl : { l with loadIdx := BitVec.ofNat _ 0 } = l := by
      cases l
      cases h0
      rfl
    rw [hl]
    exact .refl
  | succ m ih =>
    have hidx : (BitVec.ofNat (tlog numServers) m).toNat = m := by
      rw [BitVec.toNat_ofNat, Nat.mod_eq_of_lt (by omega)]
    have hnext := loadCtxtA_of_none (l := { l with loadIdx := BitVec.ofNat _ m }) hp ho
      (by rw [hidx]; omega)
    have hsum : BitVec.ofNat (tlog numServers) m + 1 = BitVec.ofNat _ (m + 1) :=
      (BitVec.ofNat_add m 1).symm
    rw [hsum] at hnext
    exact (ih (by omega)).step a (hstep _ _ hnext)

/-- An engine keeps to its servers exactly when there is a power of two of them. -/
lemma loadIdx_lt_iff_of {σ α ε : Type*} {M : RuleSystem σ α ε} (f : Loader cmdQDepth numServers → σ)
    (g : σ → Loader cmdQDepth numServers) (hg : ∀ l, g (f l) = l)
    (a : α) (hstep : ∀ l l', l.loadCtxtA = some l' → M.step (f l) a = some (f l', []))
    (hp : l.loadInProgress = false) (ho : ∀ i, l.outs1 i = 0) (h0 : l.loadIdx = 0) :
    (∀ tr s, M.Reaches (f l) tr s → (g s).loadIdx.toNat < numServers) ↔ ∃ k, numServers = 2 ^ k := by
  constructor
  · intro h
    by_contra hk
    have hlt := lt_two_pow_tlog hk
    have hlast := h _ _ (reaches_loadIdx f a hstep hp ho h0 (Nat.le_refl _) hlt)
    rw [hg] at hlast
    simp only [BitVec.toNat_ofNat, Nat.mod_eq_of_lt hlt] at hlast
    omega
  · intro hk tr s _
    exact (forall_lt_iff numServers).mpr hk _

end Loader

/-- **The engines keep to their servers exactly when there is a power of two of them**: in every state
that `mkMemreadEngineBuff` reaches `loadIdx` is the index of a server, and the same of
`mkMemwriteEngineBuff`, if and only if `numServers` is a power of two.

**Proof sketch.** A counter of `TLog#(numServers)` bits has no other values if the number is a power of
two. Otherwise rule `load_ctxt_a` gets there from reset (`Loader.reaches_loadIdx`). -/
theorem loadIdx_lt_iff (dataWidth dataWidthBytes cmdQDepth numServers bufferSizeBeats : ℕ)
    (buff : BitVec (buffAddrSz numServers cmdQDepth) → MemengineCmd)
    (complBuff : BitVec (buffAddrSz 4 16) → BitVec dataWidth × Bool) :
    ((∀ tr s, (memreadEngine dataWidth dataWidthBytes cmdQDepth numServers bufferSizeBeats).Reaches
        (MemreadEngine.reset dataWidth cmdQDepth numServers bufferSizeBeats buff) tr s →
          s.loader.loadIdx.toNat < numServers) ↔ ∃ k, numServers = 2 ^ k) ∧
      ((∀ tr s, (memwriteEngine dataWidth dataWidthBytes cmdQDepth numServers bufferSizeBeats).Reaches
        (MemwriteEngine.reset dataWidth cmdQDepth numServers bufferSizeBeats buff complBuff) tr s →
          s.loader.loadIdx.toNat < numServers) ↔ ∃ k, numServers = 2 ^ k) := by
  constructor
  · refine Loader.loadIdx_lt_iff_of
      (l := .reset cmdQDepth numServers (BitVec.ofNat 16 bufferSizeBeats) buff)
      (fun l => { MemreadEngine.reset dataWidth cmdQDepth numServers bufferSizeBeats buff with loader := l })
      MemreadEngine.loader (fun _ => rfl) MemreadEngine.Action.loadCtxtA (fun l l' hl => ?_) rfl (fun _ => rfl) rfl
    simp [memreadEngine, hl]
  · refine Loader.loadIdx_lt_iff_of (l := .reset cmdQDepth numServers 0 buff)
      (fun l => { MemwriteEngine.reset dataWidth cmdQDepth numServers bufferSizeBeats buff complBuff with
        loader := l })
      MemwriteEngine.loader (fun _ => rfl) MemwriteEngine.Action.loadCtxtA (fun l l' hl => ?_) rfl (fun _ => rfl) rfl
    simp [memwriteEngine, hl]

/-- The write engine with three servers, as it is in the simulator of a NAND flash, goes round them once. -/
def onceRound :=
  (memwriteEngine 64 8 1 3 32).run (.reset 64 1 3 32 (fun _ => ⟨0, 0, 0, 0⟩) fun _ => (0, false))
    [.loadCtxtA, .loadCtxtA, .loadCtxtA]

/-- It gets to a fourth server. -/
theorem not_loadIdx_lt_onceRound :
    (memwriteEngine 64 8 1 3 32).Reaches
        (.reset 64 1 3 32 (fun _ => ⟨0, 0, 0, 0⟩) fun _ => (0, false)) onceRound.2 onceRound.1 ∧
      onceRound.1.loader.loadIdx = 3 ∧ ¬ onceRound.1.loader.loadIdx.toNat < 3 :=
  ⟨RuleSystem.reaches_run _ _, by decide +kernel⟩

end Xbsv
