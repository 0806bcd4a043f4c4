import Corey.Kern.Atmap

/-!
Segments (`kern/segment.c`).

A segment is an array of pages on demand, and the list of the mappings filled from it.
-/

namespace Corey.Kern

open Corey.Comp Corey.Mem

def sgPages (sg : Kobj) : TreeId := (sg, .sgPages)

def segmentAlloc (pid : ℕ) : KM Kobj := do
  let sg ← kobjectAlloc .segment pid
  modSegment sg fun s => { s with sgMapList := [] }
  onArrays (darrayInit (sgPages sg) pgsize true pid)
  pure sg

def segmentRemoveCb (sg : Kobj) (sh : ℕ) : KM Unit := do
  let _ ← derefAs .segment sg
  amlInvalidate sg sh

def segmentInvalidate (sg : Kobj) : KM Unit := segmentRemoveCb sg 0

def segmentScopeCb (sg : Kobj) (sh : ℕ) (scopePs : Kobj) : KM Unit := do
  let _ ← derefAs .segment sg
  amlScope sg sh scopePs

def segmentGcCb (sg : Kobj) : KM Unit := do
  let _ ← derefAs .segment sg
  onArrays (darrayFree (sgPages sg))

/-- A shared copy first takes the source's mappings away. -/
def invalidateShared (src : Kobj) (mode : PageSharingMode) : KM Unit :=
  if mode = pageSharedCor ∨ mode = pageSharedCow then segmentInvalidate src else pure ()

def segmentCopy (src : Kobj) (mode : PageSharingMode) (pid : ℕ) : KM Kobj := do
  let _ ← derefAs .segment src
  if mode ≠ pageSharedCor ∧ mode ≠ pageSharedCow ∧ mode ≠ pageExcl then
    raise .inval
  else do
    let dst ← segmentAlloc pid
    invalidateShared src mode
    onArrays (darrayCopy (sgPages src) (sgPages dst) mode)
    pure dst

def segmentGetNpage (sg : Kobj) : KM ℕ := do
  let _ ← derefAs .segment sg
  let s ← state
  pure (s.darray (sgPages sg)).daNent

def invalidateShrunk (sg : Kobj) (nent npages : ℕ) : KM Unit :=
  if npages < nent then segmentInvalidate sg else pure ()

def segmentSetNbytes (sg : Kobj) (numBytes : ℕ) : KM Unit := do
  let npages := roundup numBytes pgsize / pgsize
  let nent ← segmentGetNpage sg
  invalidateShrunk sg nent npages
  if nent ≠ npages then onArrays (darraySetNent (sgPages sg) npages false)

def segmentGetPage (sg : Kobj) (npage : ℕ) (mode : PageSharingMode) : KM (Option Ppn) := do
  let _ ← derefAs .segment sg
  let r ← onArrays (darrayGet (sgPages sg) npage mode)
  pure r.1

/-- A page is cleared when it is mapped for the first time. -/
def clearOnce (p : Ppn) : MemM Unit := do
  let m ← state
  if (m.info p).piClear = false then do
    pageZero p
    setClear p

/-- The page of a segment as the fault path gets it (`at_pmap_fill_mapping`). -/
def segmentFaultPage (sg : Kobj) (pnum : ℕ) (mode : PageSharingMode) : KM Ppn := do
  let pp ← segmentGetPage sg pnum mode
  let p ← need .panic pp
  onForest (Forest.onMem (clearOnce p))
  pure p

end Corey.Kern
