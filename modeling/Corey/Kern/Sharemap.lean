import Corey.Kern.Share

/-!
The shares a processor can name (`kern/sharemap.c`), and looking objects up through them
(`kern/processor.c`).

What takes a share away again has to tell the objects in it and is defined with the callbacks.
-/

namespace Corey.Kern

open Corey.Comp Corey.Mem

def sharemapInit (pid : ℕ) : Sharemap := { map := mapInit pid, mask := word32 - 1 }

def sharemapAdd (ps sh : Kobj) : KM Unit := do
  let o ← derefAs .share sh
  let p ← derefAs .processor ps
  if o.sh.shMask &&& p.ps.psSharemap.mask ≠ o.sh.shMask then
    raise .inval
  else do
    onSharemap ps (mapPut (mapBack ps) o.koId sh)
    kobjectIncref sh

def sharemapGet (ps : Kobj) (id : ℕ) : KM Kobj := do
  let _ ← derefAs .processor ps
  onSharemap ps (mapGet id)

/-- A reference to a share through itself is answered without a look at the type. -/
def sharemapCoObj (ps : Kobj) (oref : SobjRef) (type : Option KobjType) : KM Kobj := do
  let sh ← sharemapGet ps oref.share
  if oref.share = oref.object then pure sh
  else shareCoObj sh oref.object type

/-! ### By processor -/

def processorAddShare (ps sh : Kobj) : KM Unit := sharemapAdd ps sh

def processorGetShare (ps : Kobj) (id : ℕ) : KM Kobj := sharemapGet ps id

def processorImportObj (ps : Kobj) (shId : ℕ) (ko : Kobj) : KM Unit := do
  let sh ← processorGetShare ps shId
  shareImportObj sh ko

def processorCoObj (ps : Kobj) (oref : SobjRef) (type : Option KobjType) : KM Kobj :=
  sharemapCoObj ps oref type

def processorRemoveObj (ps : Kobj) (oref : SobjRef) : KM Unit := do
  let sh ← processorGetShare ps oref.share
  shareRemoveObj sh oref.object

def processorSched : KM (Option Kobj) := do
  let cpu ← archCpu
  let s ← state
  pure (s.processors cpu)

@[simp] lemma wp_processorSched {Q : Option Kobj → Machine → Prop} {X : Exits Errno Machine}
    {s : Machine} : wp processorSched Q X s ↔ Q (s.processors s.mem.cpu) s := Iff.rfl

/-- Where the code follows `processor_sched()` without a check. -/
def theProcessor : KM Kobj := do
  let p ← processorSched
  need .gone p

end Corey.Kern
