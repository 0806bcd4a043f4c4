import Corey.Kern.Darray

/-!
The simple allocator (`pkg/simalloc/simalloc.c`) over the address source of one processor
(`lib/ummap.c`).

A block has a header with its size in front of the bytes that are handed out. Blocks that have been
freed are kept in a list for each size class, and in one more list for all larger blocks, which is
searched for the first that is long enough; where there is none a new block is taken from the end of
the range that is in use.
-/

namespace Corey.Simalloc

open Function Corey.Comp
open Corey.Kern (word64 roundup)

/-! ### The address source -/

def ummapstart : ℕ := 0x400100000000
def ummapInitLen : ℕ := 0x100000000
def ummapUpperLen : ℕ := 0x800000000
def doubleGrowLimit : ℕ := 2 ^ 30 / 2 ^ 5

/-- `alloc_state_t` -/
structure Arena where
  base : ℕ
  alloclen : ℕ := ummapInitLen
  cur : ℕ := base
  deriving DecidableEq, Repr

/-- `while (alloclen <= req_len)`, which needs no more rounds than bytes are missing. -/
def growLen (reqLen : ℕ) : ℕ → ℕ → ℕ
  | 0, alloclen => alloclen
  | n + 1, alloclen =>
    if alloclen ≤ reqLen then
      growLen reqLen n
        (if alloclen < doubleGrowLimit then alloclen * 2 else alloclen + doubleGrowLimit)
    else alloclen

/-! ### The allocator -/

def sizes : List ℕ :=
  [16, 32, 64, 128, 256, 512, 1024, 2048, 4096, 8192, 16 * 1024, 32 * 1024, 64 * 1024, 128 * 1024]

def bigBlkIndex : ℕ := 14

/-- `sizeof(struct blk_hdr)` -/
def blkHdrSize : ℕ := 24

/-- The first class that is large enough, or the index of the large blocks. -/
def getOrder (size : ℕ) : ℕ := sizes.findIdx fun s => size ≤ s

/-- The number of bytes with the header, a multiple of eight. -/
def newSize (reqSize : ℕ) : ℕ :=
  let n := (reqSize + blkHdrSize) % word64
  if n % 8 = 0 then n else (1 + n / 8) * 8 % word64

def blockSize (n : ℕ) : ℕ := if getOrder n = bigBlkIndex then n else sizes.getD (getOrder n) 0

/-- The memory of a process, as far as the allocator uses it. -/
structure Heap where
  arena : Arena
  /-- `blk->s` of the header at an address -/
  hdr : ℕ → Option ℕ := fun _ => none
  lists : ℕ → List ℕ := fun _ => []
  /-- the bytes that are handed out -/
  mem : ℕ → UInt8 := fun _ => 0
  /-- what has been handed out and not been given back, with the number of bytes asked for -/
  live : List (ℕ × ℕ) := []

abbrev AM := Comp Errno Heap

/-- The segment may refuse to grow. -/
def ummapAddrAlloc (fails : Bool) (nbytes : ℕ) : AM ℕ := do
  let s ← state
  let va := s.arena.cur
  let cur := (va + nbytes) % word64
  let reqLen := (cur + (word64 - s.arena.base)) % word64
  put { s with arena := { s.arena with cur := cur } }
  if reqLen < s.arena.alloclen then pure va
  else do
    require (reqLen ≤ ummapUpperLen)
    let alloclen := growLen reqLen (reqLen + 1 - s.arena.alloclen) s.arena.alloclen
    require (fails = false)
    put { s with arena := { s.arena with cur := cur, alloclen := alloclen } }
    pure va

def uMmap (fails : Bool) (len : ℕ) : AM ℕ := ummapAddrAlloc fails (roundup len 8)

/-- A block of a list for `n` bytes: the first one of a size class, the first large one that is long
enough. -/
def findFree (s : Heap) (n : ℕ) : Option ℕ :=
  if getOrder n = bigBlkIndex then
    (s.lists bigBlkIndex).find? fun blk => n ≤ (s.hdr blk).getD 0
  else (s.lists (getOrder n)).head?

def toDataPtr (blk : ℕ) : ℕ := blk + blkHdrSize

def toBlkHdr (p : ℕ) : ℕ := (p + (word64 - blkHdrSize)) % word64

def listRemove (order blk : ℕ) : AM Unit :=
  change fun s => { s with lists := update s.lists order ((s.lists order).erase blk) }

def listInsertHead (order blk : ℕ) : AM Unit :=
  change fun s => { s with lists := update s.lists order (blk :: s.lists order) }

def setHdr (blk n : ℕ) : AM Unit :=
  change fun s => { s with hdr := update s.hdr blk (some n) }

def malloc (fails : Bool) (reqSize : ℕ) : AM ℕ := do
  if reqSize = 0 then pure 0
  else do
    let s ← state
    match findFree s (newSize reqSize) with
    | some blk => do
      listRemove (getOrder (newSize reqSize)) blk
      pure (toDataPtr blk)
    | none => do
      let n := blockSize (newSize reqSize)
      let blk ← uMmap fails n
      setHdr blk n
      require (n ≠ 0)
      pure (toDataPtr blk)

/-- The size in the header of what was handed out. -/
def getHdr (object : ℕ) : AM ℕ := do
  let s ← state
  need .gone (s.hdr (toBlkHdr object))

def free (object : ℕ) : AM Unit := do
  if object = 0 then pure ()
  else do
    let n ← getHdr object
    listInsertHead (getOrder n) (toBlkHdr object)

def zeroed (mem : ℕ → UInt8) (p n : ℕ) : ℕ → UInt8 := fun i =>
  if p ≤ i ∧ i < p + n then 0 else mem i

def copied (mem : ℕ → UInt8) (p q n : ℕ) : ℕ → UInt8 := fun i =>
  if p ≤ i ∧ i < p + n then mem (q + (i - p)) else mem i

def memset (p n : ℕ) : AM Unit := change fun s => { s with mem := zeroed s.mem p n }

def memcpy (p q n : ℕ) : AM Unit := change fun s => { s with mem := copied s.mem p q n }

def calloc (fails : Bool) (nmemb size : ℕ) : AM ℕ := do
  let n := nmemb * size % word64
  if n = 0 then pure 0
  else do
    let p ← malloc fails n
    memset p n
    pure p

def realloc (fails : Bool) (object reqSize : ℕ) : AM ℕ := do
  let n ← getHdr object
  if newSize reqSize ≤ n then pure object
  else do
    let newp ← malloc fails reqSize
    memcpy newp object (n - blkHdrSize)
    free object
    pure newp

/-! ### What is handed out -/

/-- A pointer that was not null is handed out. -/
def hand (p n : ℕ) : AM Unit := change fun s =>
  if p = 0 then s else { s with live := (p, n) :: s.live }

/-- A pointer is given back. -/
def Heap.dropped (s : Heap) (p : ℕ) : Heap := { s with live := s.live.filter fun b => b.1 ≠ p }

/-- The calls of a process, each with whether a segment that has to grow refuses to, and its own
writes. -/
inductive Call
  | malloc (fails : Bool) (n : ℕ)
  | calloc (fails : Bool) (nmemb size : ℕ)
  | realloc (fails : Bool) (p n : ℕ)
  | free (p : ℕ)
  | store (va : ℕ) (b : UInt8)

def Call.run : Call → AM ℕ
  | .malloc fails n => do
    let p ← Simalloc.malloc fails n
    hand p n
    pure p
  | .calloc fails nmemb size => do
    let p ← Simalloc.calloc fails nmemb size
    hand p (nmemb * size)
    pure p
  | .realloc fails p n => do
    let newp ← Simalloc.realloc fails p n
    change fun s => s.dropped p
    hand newp n
    pure newp
  | .free p => do
    Simalloc.free p
    change fun s => s.dropped p
    pure 0
  | .store va b => do
    change fun s => { s with mem := update s.mem va b }
    pure 0

/-- The process gives back what it has, or the null pointer, and writes what it was given. The
arguments are of type `size_t`. -/
def Call.Legal (s : Heap) : Call → Prop
  | .malloc _ n => n < word64
  | .calloc _ nmemb size => nmemb < word64 ∧ size < word64
  | .realloc _ p n => n < word64 ∧ (p = 0 ∨ ∃ m, (p, m) ∈ s.live)
  | .free p => p = 0 ∨ ∃ m, (p, m) ∈ s.live
  | .store va _ => ∃ b ∈ s.live, b.1 ≤ va ∧ va < b.1 + b.2

/-- What is handed out lies in blocks that are long enough, behind their headers. The blocks lie in
the range of the processor, where the segment is, and do not overlap. -/
structure Sound (s : Heap) : Prop where
  usable : ∀ b ∈ s.live, ∃ blk n, b.1 = toDataPtr blk ∧ s.hdr blk = some n ∧
    blkHdrSize + b.2 ≤ n
  distinct : s.live.Pairwise fun a b => a.1 ≠ b.1
  inside : ∀ blk n, s.hdr blk = some n → s.arena.base ≤ blk ∧
    blk + n ≤ s.arena.base + ummapUpperLen ∧ blk + n ≤ s.arena.base + s.arena.alloclen
  apart : ∀ blk n blk' n', s.hdr blk = some n → s.hdr blk' = some n' → blk ≠ blk' →
    blk + n ≤ blk' ∨ blk' + n' ≤ blk

/-- What a call that returns `p` should have done to the bytes. -/
def Call.Right (s : Heap) : Call → ℕ → Heap → Prop
  | .calloc _ nmemb size, p, t => p ≠ 0 → ∀ i < nmemb * size, t.mem (p + i) = 0
  | .realloc fails q n, p, t =>
    (q = 0 → (Call.malloc fails n).run s = (.ok p, t)) ∧
    ∀ m, (q, m) ∈ s.live → ∀ i < min m n, t.mem (p + i) = s.mem (q + i)
  | _, _, _ => True

/-! ### The calls that are right -/

/-- There is room for a new block: it ends within the range, and the segment grows if it has to. -/
def Space (fails : Bool) (s : Heap) (n : ℕ) : Prop :=
  s.arena.cur + n ≤ s.arena.base + ummapUpperLen ∧
    (s.arena.base + s.arena.alloclen ≤ s.arena.cur + n → fails = false)
  deriving Decidable

/-- A block for so many bytes is in a list or can be made. -/
def Served (fails : Bool) (s : Heap) (n : ℕ) : Prop :=
  (findFree s n).isSome ∨ Space fails s (blockSize n)
  deriving Decidable

/-- The size with the header is a `size_t`, and there is a block for it. -/
def MallocOk (fails : Bool) (s : Heap) (n : ℕ) : Prop :=
  n = 0 ∨ n + 32 ≤ word64 ∧ Served fails s (newSize n)
  deriving Decidable

def Call.Ok (s : Heap) : Call → Prop
  | .malloc fails n => MallocOk fails s n
  | .calloc fails nmemb size => nmemb * size % word64 = 0 ∨
      nmemb * size < word64 ∧ MallocOk fails s (nmemb * size)
  | .realloc fails p n => p ≠ 0 ∧ n + 32 ≤ word64 ∧
      (newSize n ≤ (s.hdr (toBlkHdr p)).getD 0 ∨ Served fails s (newSize n))
  | .free _ => True
  | .store _ _ => True

instance (s : Heap) (c : Call) : Decidable (c.Ok s) := by
  cases c <;> unfold Call.Ok <;> infer_instance

def ncpu : ℕ := 16

/-- The calls of a process on one processor, from the state `ummap_alloc_init` leaves. -/
def heapSystem : System Heap Call where
  init s := ∃ pid < ncpu, ∃ mem,
    s = { arena := { base := ummapstart + pid * ummapUpperLen }, mem := mem }
  step c s := c.run.next s

end Corey.Simalloc
