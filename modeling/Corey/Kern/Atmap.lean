import Corey.Kern.Object

/-!
Lists of mappings (`kern/atmap.c`), and taking a mapping out of an address tree (`kern/at.c`).

A segment lists the mappings that have been filled from it, and so does an interior address
tree. To invalidate a mapping is to clear its range in the page tables of the tree it belongs
to. The flushing of other CPUs' translation buffers has no effect here.
-/

namespace Corey.Kern

open Corey.Comp Corey.Mem

/-- The list of the object, as `aml_get_list` finds it. -/
def Kobject.mapList (o : Kobject) : List AmRef :=
  match o.koType with
  | .segment => o.sg.sgMapList
  | .addressTree => o.tree.atMapList
  | _ => []

def setMapList (ko : Kobj) (l : List AmRef) : KM Unit :=
  change (Machine.modObj ko fun o =>
    match o.koType with
    | .segment => { o with sg := { o.sg with sgMapList := l } }
    | .addressTree => { o with tree := { o.tree with atMapList := l } }
    | _ => o)

/-- `aml_get_list` panics on other types. -/
def amlGetList (ko : Kobj) : KM (List AmRef) := do
  let o ← deref ko
  require (o.koType = .segment ∨ o.koType = .addressTree)
  pure o.mapList

def amlRemove (ko : Kobj) (am : AmRef) : KM Unit := do
  let l ← amlGetList ko
  setMapList ko (l.erase am)

/-- `aml_insert` and the fields of the mapping that are set with it. -/
def amlInsert (ko : Kobj) (r : AmRef) (am : AddressMapping) : KM Unit := do
  let l ← amlGetList ko
  let _ ← derefAs .addressTree r.tree
  modTree r.tree fun a =>
    { a with addrmap := Function.update a.addrmap r.slot { am with amKobj := some ko } }
  setMapList ko (r :: l)

def clearKobj (r : AmRef) : KM Unit :=
  modTree r.tree fun a => { a with
    addrmap := Function.update a.addrmap r.slot { a.addrmap r.slot with amKobj := none } }

def getAm (r : AmRef) : KM AddressMapping := do
  let o ← derefAs .addressTree r.tree
  pure (o.tree.addrmap r.slot)

/-! ### Invalidation -/

def kobjCacheFlush (at' : Kobj) : KM Unit := do
  let o ← derefAs .addressTree at'
  if o.tree.atObj.ref.object ≠ 0 then do
    kobjectDecref o.tree.atObj.ko
    modTree at' fun a =>
      { a with atObj := { a.atObj with ref := { a.atObj.ref with object := 0 } } }

/-- Only its assertion: an interior tree is mapped by roots. -/
def atTlbflushOthers (at' : Kobj) : KM Unit := do
  let o ← derefAs .addressTree at'
  if o.tree.atInterior then
    forEach (fun r => do
      let am ← getAm r
      let p ← derefAs .addressTree am.amParent
      require (p.tree.atInterior = false)) o.tree.atMapList

/-- The root behind a link is recognised by `pi_pmap`, which is set as long as its tree lives;
the page of a tree that is gone would be walked as a table. -/
def atInvalidateRange (at' : Kobj) (first last : ℕ) : KM Unit := do
  let o ← derefAs .addressTree at'
  require (last < ulim)
  let pm ← need .panic o.tree.atPgmap
  let s ← state
  if (pm.linksIn first last).all s.live = false then halt .gone
  else modTree at' fun a => { a with atPgmap := a.atPgmap.map (·.invalidate first last) }

def atInvalidateAddrmap (at' : Kobj) (r : AmRef) : KM Unit := do
  kobjCacheFlush at'
  let am ← getAm r
  if am.amKobj ≠ none then do
    atTlbflushOthers at'
    atInvalidateRange at' am.amVaFirst am.amVaLast
    clearKobj r

/-- One mapping of a list, invalidated if `sel` selects it. -/
def amlStep (ko : Kobj) (sel : AddressMapping → Bool) (r : AmRef) : KM Unit := do
  let am ← getAm r
  require (am.amKobj ≠ none)
  if sel am then do
    amlRemove ko r
    atInvalidateAddrmap am.amParent r

/-- The loops of `aml_invalidate` and `aml_scope` go once through the list of `ko`. -/
def amlLoop (ko : Kobj) (sel : AddressMapping → Bool) : KM Unit := do
  let l ← amlGetList ko
  forEach (amlStep ko sel) l

def amlInvalidate (ko : Kobj) (sh : ℕ) : KM Unit :=
  amlLoop ko fun am => sh = 0 || sh = am.amSh

def amlScope (ko : Kobj) (sh : ℕ) (scopePs : Kobj) : KM Unit :=
  amlLoop ko fun am => sh = am.amSh && scopePs = am.amPs

end Corey.Kern
