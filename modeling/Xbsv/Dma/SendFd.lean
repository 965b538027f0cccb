import Xbsv.Dma.SGList

set_option relaxedAutoImplicit false
set_option autoImplicit false

/-!
# Registering an object

`send_fd_to_portal` of `dmaSendFd.h` and `DmaManager_reference` of `dmaManager.c`. The software
sends one `sglist` call per scatter-gather entry, an end-of-list entry, and one `region` call
with the three barriers and index offsets. C integers keep their width: `int` and `uint32_t` are
32 bits, `long` and `uint64_t` 64 bits, `unsigned char` 8 bits.

The list that the loop runs over is what the kernel's `sg_table`, or the `PA_DMA_ADDRESSES` call
from user space, holds for the buffer. Printing is left out.

## Main definitions

* `Xbsv.SGList.SgEntry` — an entry of a scatter-gather list.
* `Xbsv.SGList.sglistLoop`, `Xbsv.SGList.borderStep` — the two loops of `send_fd_to_portal`.
* `Xbsv.SGList.sendFdToPortal` — the configuration calls it issues.
* `Xbsv.SGList.DmaCall.toConfig` — the call that reaches `mkSGListMMU` through the
  `DmaConfig` interface of `MemServer.bsv`.
* `Xbsv.SGList.reference` — `DmaManager_reference`.
-/

namespace Xbsv.SGList

open Rules

/-- A physically contiguous piece of a buffer: `addr` and `len` of the loop, both `long`. -/
@[ext]
structure SgEntry where
  addr : BitVec 64
  len : BitVec 64
  deriving DecidableEq, Repr

/-- The calls of the software side, with the argument widths of `DmaConfig`. -/
inductive DmaCall
  | sglist (pointer : BitVec 32) (addr : BitVec 64) (len : BitVec 32)
  | region (pointer : BitVec 32) (barr8 barr4 barr0 : BitVec 64)
  deriving DecidableEq, Repr

/-- `sglist` and `region` of `mkConfigMemServerR`, `W` and `RW` truncate their arguments and call
the unit. -/
def DmaCall.toConfig : DmaCall → ConfigCall
  | .sglist pref addr len => .sglist pref (addr.setWidth 40) len
  | .region pointer barr8 barr4 barr0 =>
    .region pointer (barr8.setWidth 36) (barr4.setWidth 36) (barr0.setWidth 36)

/-- `shifts[]`: the page shifts, largest first, and a final zero. -/
def shifts : Fin 4 → ℕ := ![20, 16, 12, 0]

/-- The inner loop of `send_fd_to_portal`: the index of the page size that `len` is. -/
def sizeClass (len : BitVec 64) : Option (Fin 3) :=
  [0, 1, 2].find? fun j => len = 1#64 <<< shifts j.castSucc

/-- The loop over the entries: the `sglist` calls, the index after the last entry, and
`regions[]`, the number of entries of each size. An entry of another size is sent with its
address as it is, and is not counted. -/
def sglistLoop (id : BitVec 32) :
    ℕ → (Fin 3 → BitVec 32) → List SgEntry → List DmaCall × ℕ × (Fin 3 → BitVec 32)
  | i, regions, [] => ([], i, regions)
  | i, regions, e :: es =>
    let pointer := (id <<< 8) + BitVec.ofNat 32 i
    match sizeClass e.len with
    | some j =>
      let rest := sglistLoop id (i + 1) (Function.update regions j (regions j + 1)) es
      (.sglist pointer (e.addr.sshiftRight (shifts j.castSucc)) (e.len.setWidth 32) :: rest.1,
        rest.2)
    | none =>
      let rest := sglistLoop id (i + 1) regions es
      (.sglist pointer e.addr (e.len.setWidth 32) :: rest.1, rest.2)

/-- `border`, `entryCount` and `borderVal[]`. -/
structure Borders where
  border : BitVec 64
  entryCount : BitVec 8
  borderVal : Fin 3 → BitVec 64

/-- One iteration of the loop that computes the barriers. -/
def borderStep (regions : Fin 3 → BitVec 32) (b : Borders) (i : Fin 3) : Borders :=
  let idxOffset : BitVec 8 := (b.entryCount.setWidth 64 - b.border).setWidth 8
  let border := b.border + (regions i).setWidth 64
  { entryCount := (b.entryCount.setWidth 32 + regions i).setWidth 8
    borderVal := Function.update b.borderVal i (border <<< 8 ||| idxOffset.setWidth 64)
    border := border <<< (shifts i.castSucc - shifts i.succ) }

/-- The three values sent with `region`. -/
def borderVals (regions : Fin 3 → BitVec 32) : Fin 3 → BitVec 64 :=
  ([0, 1, 2].foldl (borderStep regions) ⟨0, 0, fun _ => 0⟩).borderVal

/-- `send_fd_to_portal`: the calls issued for object `id` with the given entries. -/
def sendFdToPortal (id : BitVec 32) (es : List SgEntry) : List DmaCall :=
  let loop := sglistLoop id 0 (fun _ => 0) es
  let vals := borderVals loop.2.2
  loop.1 ++ [.sglist ((id <<< 8) + BitVec.ofNat 32 loop.2.1) 0 0,
    .region id (vals 0) (vals 1) (vals 2)]

/-- The tables after a list of calls. -/
def Tables.calls (t : Tables) (cs : List DmaCall) : Tables :=
  (cs.map DmaCall.toConfig).foldl Tables.apply t

/-- `DmaManager_reference`: hand out the next handle (`priv->handle++`, an `int`) and register
the object under it. Returns the calls issued and the new value of `priv->handle`. -/
def reference (handle : BitVec 32) (es : List SgEntry) : List DmaCall × BitVec 32 :=
  (sendFdToPortal handle es, handle + 1)

/-- The calls issued by successive references, from a given value of `priv->handle`. -/
def references (handle : BitVec 32) : List (List SgEntry) → List DmaCall
  | [] => []
  | es :: rest => (reference handle es).1 ++ references (reference handle es).2 rest

end Xbsv.SGList
