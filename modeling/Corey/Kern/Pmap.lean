import Corey.Mem.Forest

/-!
Hardware page tables (`arch/amd64/pmap.c`).

A table of level 3 is the root of an address space, one of level 0 holds the entries that map
pages. A table of level 2 may also link to the root of an interior tree, which is a table of
level 1 that belongs to another address tree. The entries of a root from 256 on are its kernel
half; they point to the kernel's own tables, and no walk below `ULIM` comes to them. An entry that
maps a page carries, for the sake of what is proved about it, what it was installed for, and a
link carries whose root it points to.
-/

namespace Corey.Kern

open Function Corey.Comp Corey.Mem
open Corey.Mem.Forest (ForestM takePage givePage)

/-- A pointer to a kernel object. -/
abbrev Kobj := ℕ

/-- What an entry of level 0 was installed for: a page of a segment, or the root of an interior
tree that was linked where the tables are not of the level the link is meant for. -/
inductive PteSrc
  | page (sg : Kobj) (pnum : ℕ)
  | root (tree : Kobj)
  deriving DecidableEq

structure Pte where
  page : Ppn
  write : Bool
  exec : Bool
  src : PteSrc
  deriving DecidableEq

/-- An entry of a table of the given level. -/
inductive PmEnt : ℕ → Type
  | none {l : ℕ} : PmEnt l
  | map (e : Pte) : PmEnt 0
  | table {l : ℕ} (page : Ppn) (ent : ℕ → PmEnt l) : PmEnt (l + 1)
  | link (tree : Kobj) (page : Ppn) : PmEnt 2

abbrev PmTable (l : ℕ) := ℕ → PmEnt l

def emptyTable {l : ℕ} : PmTable l := fun _ => .none

def nptlvls : ℕ := 3
def nptentries : ℕ := 512
def ulim : ℕ := 0x0000800000000000
def pisize : ℕ := 2 ^ 30
def pipages : ℕ := pisize / pgsize

def pdx (l va : ℕ) : ℕ := va / 2 ^ (12 + 9 * l) % nptentries

/-- The tables of the kernel that a root points to (`arch/amd64/bootdata.c`). -/
inductive KernTable
  | bootpdplo
  | bootpdphi (cpu : ℕ)
  deriving DecidableEq

/-- The kernel half of the pagemap a CPU has booted with, whose other half is empty. -/
def bootpml4 (cpu i : ℕ) : Option KernTable :=
  if i = 256 then some .bootpdplo else if i = 511 then some (.bootpdphi cpu) else none

/-- The pagemap of an address tree: its page, `pi_pmap_int`, and its table, which is `root`,
or `inner` where the flag is set. The entries of a root from 256 on are in `kern`. -/
structure Pagemap where
  page : Ppn
  int : Bool
  root : PmTable 3 := emptyTable
  inner : PmTable 1 := emptyTable
  kern : ℕ → Option KernTable := fun _ => none

def Pagemap.clear (pm : Pagemap) : Pagemap := { page := pm.page, int := pm.int }

/-! ### Reading and writing entries -/

def PmEnt.isNone {l : ℕ} : PmEnt l → Bool
  | .none => true
  | _ => false

def PmEnt.link? : {l : ℕ} → PmEnt l → Option (Kobj × Ppn)
  | _, .link a p => some (a, p)
  | _, _ => Option.none

def PmEnt.sub {l : ℕ} : PmEnt (l + 1) → PmTable l
  | .table _ ent => ent
  | _ => emptyTable

def PmEnt.setSub {l : ℕ} (a : PmTable l) : PmEnt (l + 1) → PmEnt (l + 1)
  | .table p _ => .table p a
  | e => e

def PmEnt.pte? : PmEnt 0 → Option Pte
  | .map e => some e
  | .none => Option.none

def under {l : ℕ} (i : ℕ) : Ptr (PmTable (l + 1)) (PmTable l) :=
  ⟨fun t => (t i).sub, fun a t => update t i ((t i).setSub a)⟩

/-- The entry that maps an address, not looking behind links. -/
def PmTable.lookup : {l : ℕ} → PmTable l → ℕ → Option Pte
  | 0, t, va => (t (pdx 0 va)).pte?
  | l + 1, t, va => PmTable.lookup (t (pdx (l + 1) va)).sub va

/-- The tables on the way to the address are there. -/
def PmTable.setLeaf : {l : ℕ} → PmTable l → ℕ → Pte → PmTable l
  | 0, t, va, e => update t (pdx 0 va) (.map e)
  | l + 1, t, va, e => (under (pdx (l + 1) va)).set
      (PmTable.setLeaf (t (pdx (l + 1) va)).sub va e) t

def Pagemap.lookup (pm : Pagemap) (va : ℕ) : Option Pte :=
  if pm.int then pm.inner.lookup va else pm.root.lookup va

/-! ### Walking -/

variable {ι : Type}

abbrev PmM (ι : Type) (l : ℕ) := Comp Errno (PmTable l × Forest ι)

def ensureTable (pid : ℕ) {l : ℕ} (i : ℕ) : PmM ι (l + 1) Unit := do
  let s ← state
  if (s.1 i).isNone then do
    let p ← shared (takePage pid)
    shared (Forest.onMem (pageZero p))
    change fun s => (update s.1 i (.table p emptyTable), s.2)

/-- `page_map_traverse_internal` for one address, creating tables down to level 0. A link ends
the walk here; it goes on in the pagemap of the tree it links to. -/
def pgdirWalk (pid va : ℕ) : (l : ℕ) → PmM ι l (Option Kobj)
  | 0 => pure none
  | l + 1 => do
    let s ← state
    match (s.1 (pdx (l + 1) va)).link? with
    | some (a, _) => pure (some a)
    | none => do
      ensureTable pid (pdx (l + 1) va)
      focus (under (pdx (l + 1) va)) (pgdirWalk pid va l)

/-- `as_arch_putinterior` on a root: the walk stops at the entry of level 2. -/
def asArchPutinterior (pid va : ℕ) (a : Kobj) (pimap : Ppn) : PmM ι 3 Unit := do
  require (va < ulim)
  ensureTable pid (pdx 3 va)
  focus (under (pdx 3 va)) do
    let s ← state
    if (s.1 (pdx 2 va)).isNone then
      change fun s => (update s.1 (pdx 2 va) (.link a pimap), s.2)
    else
      require ((s.1 (pdx 2 va)).link?.map Prod.snd = some pimap)

/-- The same walk in an interior pagemap. It starts two levels too high, so the place it ends
at is an entry of level 0, which then maps the page of the root. -/
def asArchPutinteriorLow (pid va : ℕ) (a : Kobj) (pimap : Ppn) : PmM ι 1 Unit := do
  require (va < ulim)
  ensureTable pid (pdx 3 va)
  focus (under (pdx 3 va)) do
    let s ← state
    match (s.1 (pdx 2 va)).pte? with
    | none => change fun s => (update s.1 (pdx 2 va)
        (.map { page := pimap, write := true, exec := true, src := .root a }), s.2)
    | some e => require (e.page = pimap)

/-! ### Invalidating and freeing -/

/-- `page_map_invalidate_internal`: what it does to each entry. -/
def PmTable.invalidate : {l : ℕ} → ℕ → ℕ → PmTable l → PmTable l
  | 0, first, last, t => fun i =>
    if pdx 0 first ≤ i ∧ i ≤ pdx 0 last then .none else t i
  | l + 1, first, last, t => fun i =>
    if pdx (l + 1) first ≤ i ∧ i ≤ pdx (l + 1) last then
      match t i with
      | .table p ent => .table p (PmTable.invalidate
          (if i = pdx (l + 1) first then first else 0)
          (if i = pdx (l + 1) last then last else 2 ^ 64 - 1) ent)
      | _ => .none
    else t i

def Pagemap.invalidate (pm : Pagemap) (first last : ℕ) : Pagemap :=
  if pm.int then { pm with inner := pm.inner.invalidate first last }
  else { pm with root := pm.root.invalidate first last }

/-- The trees linked to in a range of addresses. -/
def PmTable.linksIn (first last : ℕ) (t : PmTable 3) : List Kobj :=
  (List.range nptentries).flatMap fun i =>
    if pdx 3 first ≤ i ∧ i ≤ pdx 3 last then
      match t i with
      | .table _ ent => (List.range nptentries).filterMap fun j =>
          if pdx 2 (if i = pdx 3 first then first else 0) ≤ j ∧
              j ≤ pdx 2 (if i = pdx 3 last then last else 2 ^ 64 - 1) then
            (ent j).link?.map Prod.fst
          else none
      | _ => []
    else []

def Pagemap.linksIn (pm : Pagemap) (first last : ℕ) : List Kobj :=
  if pm.int then [] else pm.root.linksIn first last

/-- One entry of `page_map_free_level`. A linked root is recognised by `pi_pmap`, which is set
as long as its tree lives; the page of a tree that is gone may hold anything. -/
def pageMapFreeEnt (live : Kobj → Bool) : {l : ℕ} → PmEnt l → ForestM ι Unit
  | _, .none => pure ()
  | _, .map _ => pure ()
  | _, .link a _ => if live a then pure () else halt .gone
  | _, .table p ent => do
    loop (fun i => pageMapFreeEnt live (ent i)) 0 nptentries
    givePage p

/-- A page read as a page table: the entries that have `PTE_P` set. -/
def presentWord (b : Page) (i : ℕ) : Bool :=
  if h : 8 * i < pgsize then (b ⟨8 * i, h⟩).toNat % 2 = 1 else false

/-- What `page_map_free_level` does to a page of user data that it takes for a table: all its
words are cleared and the page is freed. A word with `PTE_P` set would be followed. -/
def freeDataAsTable (p : Ppn) : MemM Unit := do
  let m ← state
  if (List.range nptentries).any (presentWord (m.bytes p)) then
    halt .gone
  else do
    pageZero p
    pageFree p

/-- `page_map_free` starts at level 3 in every pagemap. In an interior one the tables are two
levels lower than that, so its leaf entries are taken for tables. -/
def freeInnerEnt (live : Kobj → Bool) : PmEnt 1 → ForestM ι Unit
  | .none => pure ()
  | .table p ent => do
    loop (fun i =>
      match ent i with
      | .map e =>
        match e.src with
        | .page _ _ => Forest.onMem (freeDataAsTable e.page)
        | .root a => if live a then pure () else halt .gone
      | .none => pure ()) 0 nptentries
    givePage p

/-- `page_map_free_level` on a root leaves out its upper half. -/
def freeTables (live : Kobj → Bool) (pm : Pagemap) : ForestM ι Unit :=
  if pm.int then loop (fun i => freeInnerEnt live (pm.inner i)) 0 (nptentries / 2)
  else loop (fun i => pageMapFreeEnt live (pm.root i)) 0 (nptentries / 2)

/-- The trees whose roots have `pi_pmap` set once that of `a` has been cleared. -/
def others (live : Kobj → Bool) (a b : Kobj) : Bool := live b && b != a

/-- `page_map_free` of the tree `a`. A tree that is linked to itself would be walked into, and its
root freed there and again in the end. -/
def pageMapFree (live : Kobj → Bool) (a : Kobj) (pm : Pagemap) : ForestM ι Unit := do
  freeTables (others live a) pm
  givePage pm.page

end Corey.Kern
