import Corey.Lib.Comp
import Mathlib.Data.UInt

/-!
Physical pages and their allocator (`kern/pagealloc.c`, `kern/pageinfo.h`).

A page is named by its number. Its bytes, its `page_info` and the free lists of the memory
nodes make up the state. Two fields stand for the surroundings: `deny` says which calls of
`page_alloc` the environment makes fail, and `relink` is what writing a free-list link into
a page does to its bytes.
-/

open Function

namespace Corey

/-- The kernel's error codes (`inc/error.h`). -/
inductive Errno
  | unspec | inval | noMem | restart | notFound | perm | busy | noSpace | again | io | badType
  deriving DecidableEq, Repr

end Corey

namespace Corey.Mem

open Corey.Comp

abbrev Ppn := ℕ

def pgsize : ℕ := 4096

abbrev Page := Fin pgsize → UInt8

def zeroPage : Page := fun _ => 0

/-- `jos_atomic_t` counts modulo `2 ^ 32`. -/
def word32 : ℕ := 2 ^ 32

def atomicInc (n : ℕ) : ℕ := (n + 1) % word32
def atomicDec (n : ℕ) : ℕ := (n + (word32 - 1)) % word32

structure PageInfo where
  piRef : ℕ := 0
  piFreepage : Bool := false
  piHwpage : Bool := false
  piClear : Bool := false
  piHwRef : ℕ := 0

/-- A memory node is a range of physical addresses. -/
structure MemoryNode where
  baseaddr : ℕ
  length : ℕ

structure Memory where
  memnode : List MemoryNode
  /-- `cpus[pid].nodeid` -/
  nodeid : ℕ → ℕ
  /-- the CPU that runs the code, `arch_cpu()` -/
  cpu : ℕ
  info : Ppn → PageInfo
  bytes : Ppn → Page
  freeList : ℕ → List Ppn
  /-- `page_stats.failures` -/
  failures : ℕ
  calls : ℕ
  deny : ℕ → Bool
  relink : Page → Page
  /-- history: the ids `page_alloc` has been called with -/
  asked : List ℕ := []

abbrev MemM := Comp Errno Memory

def Memory.nmemnode (m : Memory) : ℕ := m.memnode.length

def Memory.setInfo (m : Memory) (p : Ppn) (i : PageInfo) : Memory :=
  { m with info := update m.info p i }

def Memory.setBytes (m : Memory) (p : Ppn) (b : Page) : Memory :=
  { m with bytes := update m.bytes p b }

section

variable (m : Memory) (p : Ppn) (i : PageInfo) (b : Page)

@[simp] lemma setInfo_info : (m.setInfo p i).info = update m.info p i := rfl
@[simp] lemma setInfo_bytes : (m.setInfo p i).bytes = m.bytes := rfl
@[simp] lemma setInfo_freeList : (m.setInfo p i).freeList = m.freeList := rfl
@[simp] lemma setInfo_setInfo (j : PageInfo) :
    (m.setInfo p i).setInfo p j = m.setInfo p j := by
  simp [Memory.setInfo]
@[simp] lemma setBytes_info : (m.setBytes p b).info = m.info := rfl
@[simp] lemma setBytes_bytes : (m.setBytes p b).bytes = update m.bytes p b := rfl

end

/-- The bytes after the free-list links of the pages in `l` have been written. -/
def Memory.relinked (m : Memory) (l : List Ppn) : Ppn → Page :=
  fun q => if q ∈ l then m.relink (m.bytes q) else m.bytes q

/-- `arch_node_by_addr`; no node holds the address where the source panics. -/
def archNodeByAddr (m : Memory) (p : Ppn) : Option ℕ :=
  m.memnode.findIdx? fun n =>
    n.baseaddr ≤ p * pgsize ∧ p * pgsize < n.baseaddr + n.length

def archNodeByCpu (m : Memory) (pid : ℕ) : ℕ := m.nodeid pid

def pageZero (p : Ppn) : MemM Unit := change fun m => m.setBytes p zeroPage

def memcpy (dst src : Ppn) : MemM Unit := change fun m => m.setBytes dst (m.bytes src)

def setClear (p : Ppn) : MemM Unit :=
  change fun m => m.setInfo p { m.info p with piClear := true }

/-- Putting `v` at the head of the free list of `node`. The link lives in the first bytes of
the page, and the old head's link is written too. -/
def Memory.insertHead (m : Memory) (node : ℕ) (v : Ppn) : Memory :=
  { m with
    bytes := m.relinked (v :: (m.freeList node).take 1)
    freeList := update m.freeList node (v :: m.freeList node) }

def pageFree (v : Ppn) : MemM Unit := do
  let m ← state
  if (m.info v).piHwpage then
    pure ()
  else
    let node ← need .panic (archNodeByAddr m v)
    require ((m.info v).piFreepage = false)
    change fun m => m.setInfo v { m.info v with piFreepage := true, piClear := false }
    change fun m => m.insertHead node v

/-- The nodes tried after `node`, from `n` on: one with a free page, none at all, or a search
that never comes back to `node`. -/
def scanNodes (m : Memory) (node : ℕ) : ℕ → ℕ → Option (Option ℕ)
  | 0, n => if n = node then some none else none
  | k + 1, n =>
    if n = node then some none
    else if m.freeList n ≠ [] then some (some n)
    else scanNodes m node k ((n + 1) % m.nmemnode)

/-- The node `page_alloc` takes a page from. -/
def pickNode (m : Memory) (node : ℕ) : Option (Option ℕ) :=
  if m.freeList node ≠ [] then some (some node)
  else scanNodes m node m.nmemnode ((node + 1) % m.nmemnode)

/-- Taking the first page off the free list of `node`. -/
def Memory.removeHead (m : Memory) (node : ℕ) : Memory :=
  { m with
    bytes := m.relinked ((m.freeList node).tail.take 1)
    freeList := update m.freeList node (m.freeList node).tail }

@[simp] lemma removeHead_info (m : Memory) (node : ℕ) : (m.removeHead node).info = m.info := rfl

def pageAllocFail : MemM Ppn := do
  change fun m => { m with failures := m.failures + 1 }
  raise .noMem

def pageAlloc (pid : ℕ) : MemM Ppn := do
  let m ← state
  change fun m => { m with calls := m.calls + 1, asked := pid :: m.asked }
  if m.deny m.calls then
    pageAllocFail
  else
    match pickNode m (archNodeByCpu m (if pid = 0xFFFFFFFF then m.cpu else pid)) with
    | none => halt .spin
    | some none => pageAllocFail
    | some (some node) =>
      let p ← need .panic (m.freeList node).head?
      change fun m => m.removeHead node
      require ((m.info p).piFreepage = true)
      change fun m => m.setInfo p { m.info p with piFreepage := false }
      pure p

end Corey.Mem
