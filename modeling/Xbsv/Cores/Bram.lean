import Mathlib.Logic.Function.Basic
import Mathlib.Tactic.Common

set_option relaxedAutoImplicit false
set_option autoImplicit false

/-!
# Block memories

The block memories of the compiler's library, cycle by cycle. A port takes a request in each cycle and has the word that
was read in the next one; a server keeps its responses in order, each for some cycles, until they are taken.

## Main definitions

* `Xbsv.BRAMRequest` — the requests.
* `Xbsv.BRAM1Port` — a memory with one port.
* `Xbsv.BramServer` — a memory behind a server.
* `Xbsv.BramPort` — a memory behind a server, without the cycles.

## Main results

* `Xbsv.BramServer.map_snd_cycle` — the responses under way after a cycle.
-/

namespace Xbsv

/-- A request to a memory (`BRAMRequest` with `responseOnWrite` false). -/
inductive BRAMRequest (addressBits : ℕ) (α : Type)
  | write (address : BitVec addressBits) (datain : α)
  | read (address : BitVec addressBits)

/-- `BRAM1Port`: the memory, and the response to the read of the cycle before, if there was one. -/
structure BRAM1Port (addressBits : ℕ) (α : Type) where
  mem : BitVec addressBits → α
  response : Option α

/-- The port at the end of a cycle in which the response was taken and the request made. -/
def BRAM1Port.clock {addressBits : ℕ} {α : Type} (ram : BRAM1Port addressBits α) :
    Option (BRAMRequest addressBits α) → BRAM1Port addressBits α
  | none => { ram with response := none }
  | some (.write address datain) => ⟨Function.update ram.mem address datain, none⟩
  | some (.read address) => { ram with response := some (ram.mem address) }

/-- `BRAMServer`: the memory, and the responses under way, oldest first, each with the cycles that it still takes. A
response carries a mark that the server does not look at. -/
structure BramServer (addressBits : ℕ) (α μ : Type) where
  mem : BitVec addressBits → α
  pending : List (ℕ × (α × μ))

namespace BramServer

variable {addressBits : ℕ} {α μ : Type} (b : BramServer addressBits α μ)

/-- The response that can be taken. -/
def response : Option (α × μ) :=
  match b.pending with
  | (0, x) :: _ => some x
  | _ => none

/-- The word that a request reads. -/
def answer : Option (BRAMRequest addressBits α) → Option α
  | some (.read address) => some (b.mem address)
  | _ => none

/-- The memory after a request. -/
def write : Option (BRAMRequest addressBits α) → BitVec addressBits → α
  | some (.write address datain) => Function.update b.mem address datain
  | _ => b.mem

/-- A cycle, in which the response is taken or not and a request may be made. -/
def cycle (latency : ℕ) (mark : μ) (taken : Bool) (request : Option (BRAMRequest addressBits α)) :
    BramServer addressBits α μ where
  mem := b.write request
  pending := ((if taken then b.pending.tail else b.pending).map fun p => (p.1 - 1, p.2)) ++
    ((b.answer request).map fun x => (latency, (x, mark))).toList

variable {b}

/-- What can be taken is the oldest response. -/
lemma response_eq_some {x : α × μ} (h : b.response = some x) : ∃ rest, b.pending = (0, x) :: rest := by
  unfold response at h
  split at h
  · rename_i y rest heq
    cases h
    exact ⟨rest, heq⟩
  · cases h

/-- The responses under way after a cycle. -/
lemma map_snd_cycle (latency : ℕ) (mark : μ) (taken : Bool) (request : Option (BRAMRequest addressBits α)) :
    (b.cycle latency mark taken request).pending.map Prod.snd =
      (if taken then (b.pending.map Prod.snd).tail else b.pending.map Prod.snd) ++
        ((b.answer request).map fun x => (x, mark)).toList := by
  rw [cycle, List.map_append, List.map_map]
  congr 1
  · cases taken with
    | false => rfl
    | true =>
      rw [if_pos rfl, if_pos rfl, ← List.map_tail]
      rfl
  · cases b.answer request <;> rfl

end BramServer

/-! ## Without the cycles -/

/-- A port of a memory behind a server, to which up to three words can be on the way; oldest first. -/
structure BramPort (addressBits : ℕ) (α : Type) where
  mem : BitVec addressBits → α
  responses : List α

namespace BramPort

variable {addressBits : ℕ} {α : Type} (p : BramPort addressBits α)

/-- `request.put` -/
def put : BRAMRequest addressBits α → Option (BramPort addressBits α)
  | .write address datain => some { p with mem := Function.update p.mem address datain }
  | .read address => if p.responses.length < 3 then some { p with responses := p.responses ++ [p.mem address] } else none

/-- `response.get` -/
def get : Option (α × BramPort addressBits α) :=
  match p.responses with
  | [] => none
  | v :: rest => some (v, { p with responses := rest })

variable {p}

@[simp] lemma put_write (address : BitVec addressBits) (datain : α) :
    p.put (.write address datain) = some { p with mem := Function.update p.mem address datain } := rfl

/-- A read, when nothing is on the way. -/
lemma put_read (h : p.responses = []) (address : BitVec addressBits) :
    p.put (.read address) = some ⟨p.mem, [p.mem address]⟩ := by
  simp [put, h]

lemma get_of_cons {v : α} {rest : List α} (h : p.responses = v :: rest) : p.get = some (v, ⟨p.mem, rest⟩) := by
  simp [get, h]

lemma eq_of_responses_nil (h : p.responses = []) {q : BramPort addressBits α} (hq : q.responses = [])
    (hmem : q.mem = p.mem) : q = p := by
  cases p
  cases q
  simp_all

end BramPort

end Xbsv
