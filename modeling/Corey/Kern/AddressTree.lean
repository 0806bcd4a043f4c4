import Corey.Kern.Segment
import Corey.Kern.Sharemap

/-!
Address trees (`kern/at.c`), without what happens to them when a share goes away.

An address tree is a table of user mappings, the slots, and a pagemap that page faults fill
from it. Two caches make faults fast: the object looked up last, on which a reference is held,
and the slot used last together with the range of addresses it covers.
-/

namespace Corey.Kern

open Corey.Comp Corey.Mem

def segmapExec : ℕ := 1
def segmapWrite : ℕ := 2
def segmapRead : ℕ := 4

def addressMappingSegment : ℕ := 1
def addressMappingInterior : ℕ := 2

/-- `sizeof(struct u_address_mapping)` -/
def uamSize : ℕ := 56
/-- `sizeof(struct address_mapping2)` -/
def amSize : ℕ := 80
def nAddrmapPerPage : ℕ := pgsize / amSize

def atUaddrmap (a : Kobj) : TreeId := (a, .atUaddrmap)
def atAddrmap (a : Kobj) : TreeId := (a, .atAddrmap)

def hasFlags (flags req : ℕ) : Bool := flags &&& req = req

/-! ### The pagemap -/

def onPagemap {α : Type} (a : Kobj) (m : Comp Errno (Option Pagemap × Forest TreeId) α) : KM α :=
  zoom (fun s => ((s.obj a).tree.atPgmap, s.forest))
    (fun r s => Machine.modObj a (fun o => { o with tree := { o.tree with atPgmap := r.1 } })
      { s with forest := r.2 }) m

def theMap : Ptr (Option Pagemap) Pagemap :=
  ⟨fun o => o.getD { page := 0, int := false }, fun pm o => o.map fun _ => pm⟩

def rootOf : Ptr Pagemap (PmTable 3) := ⟨Pagemap.root, fun t pm => { pm with root := t }⟩
def innerOf : Ptr Pagemap (PmTable 1) := ⟨Pagemap.inner, fun t pm => { pm with inner := t }⟩

def Pagemap.setLeaf (pm : Pagemap) (va : ℕ) (e : Pte) : Pagemap :=
  if pm.int then { pm with inner := pm.inner.setLeaf va e }
  else { pm with root := pm.root.setLeaf va e }

/-- The tables on the way to an address, and the tree whose link ends the way. -/
def pgdirWalkIn (a : Kobj) (va pid : ℕ) : KM (Option Kobj) := do
  let o ← derefAs .addressTree a
  let pm ← need .panic o.tree.atPgmap
  require (va < ulim)
  onPagemap a (focus theMap
    (if pm.int then focus innerOf (pgdirWalk pid va 1) else focus rootOf (pgdirWalk pid va 3)))

/-- The way goes on in a linked pagemap, whose table is taken for one of level 1. -/
def pgdirWalkLinked (b : Kobj) (va pid : ℕ) : KM (Option Kobj) := do
  let o ← derefAs .addressTree b
  let pm ← need .panic o.tree.atPgmap
  if pm.int = false then halt .badType else pgdirWalkIn b va pid

/-- The permission bits `as_arch_putpage` derives from flags. -/
def pteOf (page : Ppn) (flags : ℕ) (src : PteSrc) : Pte :=
  { page := page, write := hasFlags flags segmapWrite, exec := hasFlags flags segmapExec
    src := src }

/-- `as_arch_putpage`. Where the way leads through a link the entry is written in the pagemap
of the tree linked to. -/
def asArchPutpage (a : Kobj) (va pid : ℕ) (e : Pte) : KM Unit := do
  match ← pgdirWalkIn a va pid with
  | none => modTree a fun t => { t with atPgmap := t.atPgmap.map (·.setLeaf va e) }
  | some b => do
    let _ ← pgdirWalkLinked b va pid
    modTree b fun t => { t with atPgmap := t.atPgmap.map (·.setLeaf va e) }

/-- `as_arch_putinterior` on the pagemap of `a`, for the pagemap of `b`. -/
def putInterior (a : Kobj) (va : ℕ) (b : Kobj) : KM Unit := do
  let o ← derefAs .addressTree a
  let i ← derefAs .addressTree b
  let pm ← need .panic o.tree.atPgmap
  let im ← need .panic i.tree.atPgmap
  onPagemap a (focus theMap
    (if pm.int then focus innerOf (asArchPutinteriorLow i.koPid va b im.page)
     else focus rootOf (asArchPutinterior i.koPid va b im.page)))

/-- A copy of the pagemap the CPU has booted with. `pi_pmap_int` is one bit wide; where it is set
the caller clears the copy, so it is not looked at as a table of level 1. -/
def pageMapAlloc (interior pid : ℕ) : KM Pagemap := do
  let p ← onForest (Forest.takePage pid)
  let cpu ← archCpu
  pure { page := p, int := interior % 2 = 1, kern := bootpml4 cpu }

/-- The pagemap of a new tree. `interior` is a `char`, and `at_interior` is one bit wide. -/
def newPagemap (a : Kobj) (interior pid : ℕ) : KM Unit := do
  let pm ← pageMapAlloc interior pid
  modTree a fun t => { t with
    atPgmap := some (if interior % 256 ≠ 0 then pm.clear else pm)
    atInterior := interior % 2 = 1, atMapList := [], atPsList := [] }

/-- If there is no page for the pagemap the object stays without one. -/
def atAlloc (interior pid : ℕ) : KM Kobj := do
  let a ← kobjectAlloc .addressTree pid
  newPagemap a interior pid
  onArrays (darrayInit (atUaddrmap a) uamSize false pid)
  onArrays (darrayInit (atAddrmap a) amSize false pid)
  pure a

/-! ### The tables of mappings -/

def atNents (a : Kobj) : KM ℕ := do
  let _ ← derefAs .addressTree a
  let s ← state
  pure (s.darray (atUaddrmap a)).daNent

def setRange (a : Kobj) (r : RangeCache) : KM Unit :=
  change fun s => { s with atRange := Function.update s.atRange a r }

/-- Entries of a table that has grown are zero. -/
def atResize (a : Kobj) (nent : ℕ) : KM Unit := do
  let old ← atNents a
  let s ← state
  if nent < old then setRange a { s.atRange a with uam := none }
  onArrays (darraySetNent (atUaddrmap a) nent true)
  modTree a fun t => { t with
    uaddrmap := fun i => if old ≤ i ∧ i < nent then {} else t.uaddrmap i }

def atGetUaddrmap (a : Kobj) (i : ℕ) : KM UAddressMapping := do
  let n ← atNents a
  let o ← getObj a
  if n ≤ i then raise .inval else pure (o.tree.uaddrmap i)

def setUaddrmap (a : Kobj) (i : ℕ) (u : UAddressMapping) : KM Unit :=
  modTree a fun t => { t with uaddrmap := Function.update t.uaddrmap i u }

/-- The table of the kernel's mappings grows to the slot that is asked for. -/
def atGetAddrmap (a : Kobj) (smi : ℕ) : KM AddressMapping := do
  let _ ← derefAs .addressTree a
  let s ← state
  if (s.darray (atAddrmap a)).daNent ≤ smi then
    onArrays (darrayGrowNent (atAddrmap a) (roundup (smi + 1) nAddrmapPerPage))
  getAm ⟨a, smi⟩

/-- One slot of `at_clear_mappings`: the mapping is forgotten, its page table entries stay. -/
def clearMapping (a : Kobj) (i : ℕ) : KM Unit := do
  match ← attempt (atGetUaddrmap a i) with
  | .error _ => halt .panic
  | .ok uam =>
    if uam.flags = 0 then pure ()
    else do
      match ← attempt (atGetAddrmap a i) with
      | .error _ => pure ()
      | .ok am =>
        match am.amKobj with
        | none => pure ()
        | some ko => do
          amlRemove ko ⟨a, i⟩
          clearKobj ⟨a, i⟩

def atClearMappings (a : Kobj) : KM Unit := do
  let n ← atNents a
  loop (clearMapping a) 0 n

/-! ### Filling the pagemap -/

/-- `ROUNDDOWN(uam->va, PGSIZE)` -/
def UAddressMapping.vaStart (u : UAddressMapping) : ℕ := rounddown u.va pgsize

/-- The page of the segment that is mapped at `va`. Sums of pointers wrap. -/
def atVaToSegmentPage (u : UAddressMapping) (va : ℕ) : KM ℕ := do
  require (u.vaStart ≤ va ∧ va < (u.vaStart + u.numPages * pgsize) % word64)
  pure ((u.startPage + (va - u.vaStart) / pgsize) % word64)

/-- `kobj_get`, with the lookup cache. -/
def kobjGet (a : Kobj) (ref : SobjRef) (type : KobjType) : KM Kobj := do
  let ps ← theProcessor
  let p ← derefAs .processor ps
  let o ← derefAs .addressTree a
  let c := o.tree.atObj
  if p.koId = c.psId ∧ c.ref.object ≠ 0 ∧ c.ref.object = ref.object ∧ c.ref.share = ref.share then
    pure c.ko
  else do
    let ko ← processorCoObj ps ref (some type)
    if c.ref.object ≠ 0 then kobjectDecref c.ko
    modTree a fun t => { t with atObj := { ref := ref, ko := ko, psId := p.koId } }
    kobjectIncref ko
    pure ko

/-- The fields of a mapping that is filled for the first time. -/
def newMapping (a ps : Kobj) (u : UAddressMapping) : AddressMapping :=
  { amParent := a, amPs := ps, amSh := u.object.share, amVaFirst := u.va
    amVaLast := (u.va + (u.numPages + word64 - 1) % word64 * pgsize) % word64
    amAtSlot := u.kslot }

/-- The mapping of a slot is entered in the list of what it maps, once. -/
def linkMapping (a : Kobj) (u : UAddressMapping) (ko : Kobj) : KM Bool := do
  let am ← atGetAddrmap a u.kslot
  require (am.amKobj = none ∨ am.amKobj = some ko)
  if am.amKobj = none then do
    let ps ← theProcessor
    amlInsert ko ⟨a, u.kslot⟩ (newMapping a ps u)
    pure true
  else pure false

def fillMode (u : UAddressMapping) : PageSharingMode :=
  if hasFlags u.flags segmapWrite then pageSharedCow else pageSharedCor

/-- The page of a segment that is about to be mapped. -/
structure Target where
  tree : Kobj
  va : ℕ
  sg : Kobj
  pnum : ℕ
  mode : PageSharingMode
  flags : ℕ

/-- The segment part of `at_pmap_fill_mapping`, up to the page. -/
def fillSegment (a : Kobj) (u : UAddressMapping) (va : ℕ) : KM Target := do
  let sg ← kobjGet a u.object .segment
  let _ ← derefAs .segment sg
  let _ ← linkMapping a u sg
  let pnum ← atVaToSegmentPage u va
  pure { tree := a, va := va, sg := sg, pnum := pnum, mode := fillMode u, flags := u.flags }

def fillPage (t : Target) : KM Unit := do
  let p ← segmentFaultPage t.sg t.pnum t.mode
  let o ← derefAs .addressTree t.tree
  asArchPutpage t.tree t.va o.koPid (pteOf p t.flags (.page t.sg t.pnum))

/-- The interior part of `at_pmap_fill_mapping`: the tree to go on with, and where. -/
def fillInterior (a : Kobj) (u : UAddressMapping) (va : ℕ) : KM (Kobj × ℕ) := do
  if hasFlags u.flags segmapWrite = false then
    raise .inval
  else do
    let ai ← kobjGet a u.object .addressTree
    let o ← derefAs .addressTree ai
    if o.tree.atInterior = false then
      raise .inval
    else do
      let new ← linkMapping a u ai
      if new then putInterior a va ai
      pure (ai, (va + word64 - rounddown u.va pisize) % word64)

/-- `safe_mulptr` and `safe_addptr` report an overflow. -/
def UAddressMapping.vaEnd? (u : UAddressMapping) : Option ℕ :=
  if u.numPages * pgsize < word64 ∧ u.vaStart + u.numPages * pgsize < word64 then
    some (u.vaStart + u.numPages * pgsize)
  else none

/-- The checks the scan makes on a slot. -/
def UAddressMapping.serves (u : UAddressMapping) (va reqflags : ℕ) : Bool :=
  hasFlags u.flags segmapRead && hasFlags u.flags reqflags &&
  (u.type = addressMappingSegment || u.type = addressMappingInterior) &&
  match u.vaEnd? with
  | none => false
  | some e => u.vaStart ≤ va && va < e

/-- The first slot from `i` on, of the `k` that are left, that serves an address. -/
def scanSlots (slots : ℕ → UAddressMapping) (va reqflags : ℕ) : ℕ → ℕ → Option ℕ
  | 0, _ => none
  | k + 1, i =>
    if (slots i).serves va reqflags then some i else scanSlots slots va reqflags k (i + 1)

/-- The slot the reverse lookup cache gives, where its checks hold. -/
def RangeCache.hit (r : RangeCache) (slots : ℕ → UAddressMapping) (va reqflags : ℕ) : Option ℕ :=
  match r.uam with
  | none => none
  | some i =>
    if (slots i).flags ≠ 0 ∧ r.vaStart ≤ va ∧ va < r.vaEnd ∧ hasFlags (slots i).flags reqflags then
      some i
    else none

/-- What the cache is set to with a slot. -/
def UAddressMapping.range (u : UAddressMapping) (i : ℕ) : RangeCache :=
  { vaStart := u.vaStart, vaEnd := u.vaStart + u.numPages * pgsize, uam := some i }

/-- The scan remembers the slot it finds. -/
def scanSlot (a : Kobj) (va reqflags : ℕ) : KM ℕ := do
  let n ← atNents a
  let o ← getObj a
  match scanSlots o.tree.uaddrmap va reqflags n 0 with
  | none => raise .inval
  | some i => do
    setRange a ((o.tree.uaddrmap i).range i)
    pure i

/-- The slot `at_pmap_fill` uses. -/
def chooseSlot (a : Kobj) (va reqflags : ℕ) : KM ℕ := do
  let o ← derefAs .addressTree a
  let s ← state
  match (s.atRange a).hit o.tree.uaddrmap va reqflags with
  | some i => pure i
  | none => scanSlot a va reqflags

/-- `at_pmap_fill` up to the page of a segment. Interior slots lead from tree to tree; `fuel` is
how often the function can call itself before the kernel's stack is full. -/
def findTarget : ℕ → Kobj → ℕ → ℕ → KM Target
  | 0, _, _, _ => halt .panic
  | fuel + 1, a, va, reqflags => do
    let i ← chooseSlot a va reqflags
    let o ← getObj a
    let u := o.tree.uaddrmap i
    let vaAlign := rounddown va pgsize
    if u.type = addressMappingInterior then do
      let r ← fillInterior a u vaAlign
      findTarget fuel r.1 r.2 reqflags
    else fillSegment a u vaAlign

def atPmapFill (fuel : ℕ) (a : Kobj) (va reqflags : ℕ) : KM Unit := do
  let t ← findTarget fuel a va reqflags
  fillPage t

def atPagefault (fuel : ℕ) (a : Kobj) (va reqflags : ℕ) : KM Unit :=
  onErr (atPmapFill fuel a va reqflags) (kobjCacheFlush a)

/-! ### Changing the slots -/

/-- `at_invalidate`, for a processor in the list of the tree. -/
def atInvalidate (a ps : Kobj) : KM Unit := do
  let o ← derefAs .addressTree a
  let p ← derefAs .processor ps
  require (o.tree.atInterior = false)
  if p.ps.psAt = some a then do
    let sched ← processorSched
    require (sched = some ps)
    atInvalidateRange a 0 (ulim - pgsize)

/-- An interior mapping always covers all of the tree it maps. -/
def UAddressMapping.sanitize (u : UAddressMapping) : UAddressMapping :=
  if u.type = addressMappingInterior then { u with numPages := pipages, startPage := 0 } else u

/-- The new table: the slots that are given, and zero after them. `kslot` is 32 bits wide. -/
def newSlots (ents : List UAddressMapping) (i : ℕ) : UAddressMapping :=
  match ents[i]? with
  | none => {}
  | some u => { u.sanitize with kslot := i % word32 }

/-- `at_from_user`, where `ents` is what the user's array holds. -/
def atFromUser (a : Kobj) (ents : List UAddressMapping) : KM Unit := do
  let n ← atNents a
  if n < ents.length then atResize a ents.length
  atClearMappings a
  let n ← atNents a
  modTree a fun t => { t with uaddrmap := fun i => if i < n then newSlots ents i else t.uaddrmap i }
  let o ← derefAs .addressTree a
  forEach (atInvalidate a) o.tree.atPsList

def atInvalidateUaddrmap (a : Kobj) (u : UAddressMapping) : KM Unit := do
  match ← attempt (atGetAddrmap a u.kslot) with
  | .error _ => halt .panic
  | .ok am =>
    match am.amKobj with
    | none => pure ()
    | some ko => do
      amlRemove ko ⟨a, u.kslot⟩
      atInvalidateAddrmap a ⟨a, u.kslot⟩

/-- The cached range of addresses is left as it is. -/
def atSetUslot (a : Kobj) (new : UAddressMapping) : KM Unit := do
  let n ← atNents a
  if n ≤ new.kslot then atResize a (new.kslot + 1)
  let u ← atGetUaddrmap a new.kslot
  if u.flags ≠ 0 then atInvalidateUaddrmap a u
  setUaddrmap a new.kslot new.sanitize

/-! ### Processors and collection -/

def atDetach (a ps : Kobj) : KM Unit := do
  let _ ← derefAs .addressTree a
  let p ← derefAs .processor ps
  require (p.ps.psAt = some a)
  modTree a fun t => { t with atPsList := t.atPsList.erase ps }

def atAttach (a ps : Kobj) : KM Unit := do
  let _ ← derefAs .addressTree a
  modTree a fun t => { t with atPsList := ps :: t.atPsList }

def atGcCb (a : Kobj) : KM Unit := do
  kobjCacheFlush a
  atClearMappings a
  onArrays (darrayFree (atUaddrmap a))
  onArrays (darrayFree (atAddrmap a))
  let o ← derefAs .addressTree a
  let pm ← need .panic o.tree.atPgmap
  let s ← state
  onForest (pageMapFree s.live a pm)

end Corey.Kern
