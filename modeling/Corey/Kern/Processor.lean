import Corey.Kern.AddressTree

/-!
Processors (`kern/processor.c`), and what happens to objects when a share goes away, a reference
is dropped or the collector takes them (`kern/share.c`, `kern/sharemap.c`, `kern/at.c`,
`kern/kobj.c`).

A processor that loses a share tells the objects in it, an address tree then halts the processor
that runs in it, and halting drops all shares. The circle is cut by a parameter: what is called
to halt a processor.
-/

namespace Corey.Kern

open Function Corey.Comp Corey.Mem

/-! ### Losing a share -/

section

variable (haltPs : Kobj → KM Bool)

def atScopeCb (a : Kobj) (sh : ℕ) (scopePs : Kobj) : KM Unit := do
  kobjCacheFlush a
  let o ← derefAs .addressTree a
  if o.tree.atInterior then
    amlScope a sh scopePs
  else do
    let p ← derefAs .processor scopePs
    if p.ps.psAt = some a ∧ sh = p.ps.psAtref.share then do
      let _ ← haltPs scopePs
      pure ()

/-- `scope_cb`: the other types do nothing. -/
def scopeCb (ko : Kobj) (sh : ℕ) (scopePs : Kobj) : KM Unit := do
  let o ← deref ko
  match o.koType with
  | .segment => segmentScopeCb ko sh scopePs
  | .addressTree => atScopeCb haltPs ko sh scopePs
  | _ => pure ()

def shareScopeChange (sh scopePs : Kobj) : KM Unit := do
  let o ← derefAs .share sh
  let l ← shareInfos sh
  forEach (fun i => scopeCb haltPs i.siKo o.koId scopePs) l

def sharemapRemove (ps : Kobj) (id : ℕ) : KM Unit := do
  let sh ← sharemapGet ps id
  match ← attempt (onSharemap ps (mapErase id)) with
  | .error _ => halt .panic
  | .ok _ => do
    shareScopeChange haltPs sh ps
    kobjectDecref sh

def sharemapFree (ps : Kobj) : KM Unit := onSharemap ps (mapFree (mapBack ps))

def sharemapClear (ps : Kobj) : KM Unit := do
  let p ← derefAs .processor ps
  forEach (fun e => do
    shareScopeChange haltPs e.2 ps
    kobjectDecref e.2) p.ps.psSharemap.map.table.toList
  sharemapFree ps
  modProcessor ps fun p => { p with
    psSharemap := { p.psSharemap with map := mapInit p.psSharemap.map.pid } }

end

/-! ### Halting -/

/-- A processor without an address tree is never asked to halt. -/
def noHalt (_ : Kobj) : KM Bool := halt .panic

/-- Only the processor of this CPU can be halted at once; another one is told to. -/
def processorHalt (ps : Kobj) : KM Bool := do
  let p ← derefAs .processor ps
  let sched ← processorSched
  if sched ≠ some ps then do
    modProcessor ps fun p => { p with psHalt := true }
    pure false
  else do
    let a ← need .gone p.ps.psAt
    atDetach a ps
    modProcessor ps fun p => { p with psAt := none, psAtref := {} }
    -- no tree can be the processor's own any more, so no halt is asked for here
    sharemapClear noHalt ps
    change fun s => { s with processors := update s.processors p.ps.psPid none }
    modProcessor ps fun p => { p with psRunning := false }
    pure true

def processorRemoveShare (ps : Kobj) (id : ℕ) : KM Unit := sharemapRemove processorHalt ps id

/-! ### Removal from a share that is collected -/

/-- The loop over the processors of a tree goes on after one that has been halted and so is
no longer in the list. -/
def atRemoveCb (a : Kobj) (sh : ℕ) : KM Unit := do
  kobjCacheFlush a
  let o ← derefAs .addressTree a
  if o.tree.atInterior then
    amlInvalidate a sh
  else
    forEach (fun ps => do
      let p ← derefAs .processor ps
      require (p.ps.psAt = some a)
      if p.ps.psAtref.share = sh then do
        let _ ← processorHalt ps
        pure ()) o.tree.atPsList

/-- `share_remove_kobj`: the other types do nothing. -/
def shareRemoveKobj (sh : ℕ) (ko : Kobj) : KM Unit := do
  let o ← deref ko
  match o.koType with
  | .segment => segmentRemoveCb ko sh
  | .addressTree => atRemoveCb ko sh
  | _ => pure ()

def shareGcCb (sh : Kobj) : KM Unit := do
  let o ← derefAs .share sh
  let l ← shareInfos sh
  forEach (fun i => do
    require (i.siCo = 0)
    shareRemoveKobj o.koId i.siKo
    kobjectDecref i.siKo) l
  onShareMap sh (mapFree (mapBack sh))
  loop (fun i => onForest (Forest.free (shBlob sh i))) 0 josNcpu

/-! ### Processors -/

def allocProcessor (pid : ℕ) : KM Unit := do
  let s ← state
  if s.ncpu ≤ pid then raise .inval
  else if s.processorFree pid = false then raise .busy
  else change fun s => { s with processorFree := update s.processorFree pid false }

def freeProcessor (pid : ℕ) : KM Unit := do
  let s ← state
  require (s.processorFree pid = false)
  change fun s => { s with processorFree := update s.processorFree pid true }

def processorAlloc (pid : ℕ) : KM Kobj := do
  allocProcessor pid
  let ps ← onErr (kobjectAlloc .processor pid) (freeProcessor pid)
  modProcessor ps fun p => { p with psPid := pid, psSharemap := sharemapInit pid }
  pure ps

/-- The fields of `struct u_context` that decide what a processor runs in. -/
structure UContext where
  ucMode : PsMode := .reg
  ucAt : SobjRef := {}
  ucShare : List SobjRef := []

def uContextNshare : ℕ := 20

/-- The shares that are handed over end at the first one without an id. -/
def UContext.shares (uc : UContext) : List SobjRef :=
  (uc.ucShare.take uContextNshare).takeWhile fun r => r.share ≠ 0

def vectorShare (ps : Kobj) (r : SobjRef) : KM Unit := do
  let sched ← theProcessor
  let sh ← processorCoObj sched r (some .share)
  processorAddShare ps sh

/-- The last part of `processor_vector`: the processor is attached to the tree and runs. -/
def processorStart (ps a : Kobj) (uc : UContext) : KM Unit := do
  atAttach a ps
  modProcessor ps fun p => { p with
    psAt := some a, psAtref := uc.ucAt, psMode := uc.ucMode, psRunning := true, psHalt := false }
  let p ← getObj ps
  change fun s => { s with processors := update s.processors p.ps.psPid (some ps) }

def processorVector (ps : Kobj) (uc : UContext) : KM Unit := do
  let p ← derefAs .processor ps
  if p.ps.psRunning then
    raise .busy
  else do
    forEach (vectorShare ps) uc.shares
    let a ← processorCoObj ps uc.ucAt (some .addressTree)
    -- `processor_arch_vector` only sets registers, which are not modelled
    require (uc.ucMode ≠ .vm)
    processorStart ps a uc

def nDevicesPerMonitor : ℕ := 32

/-- The bound is checked with `>`. The entry after the last one lies over `ps_at` and `ps_atref`,
which would be overwritten with numbers the user chooses; no state is given for that. -/
def processorSetDevice (ps : Kobj) (i : ℕ) (o : SobjRef) : KM Unit := do
  let _ ← derefAs .processor ps
  if nDevicesPerMonitor < i then raise .noSpace
  else if i = nDevicesPerMonitor then halt .badType
  else modProcessor ps fun p => { p with psMonitorObj := update p.psMonitorObj i o }

/-- One device of the first loop of `processor_monitor_run`. -/
def monitorDevice (ps : Kobj) (i : ℕ) : KM Unit := do
  let p ← derefAs .processor ps
  let r := p.ps.psMonitorObj i
  if r.object = 0 then pure ()
  else do
    match ← attempt (processorCoObj ps r (some .device)) with
    | .error _ => pure ()
    | .ok dv => do
      kobjectIncref dv
      let cpu ← archCpu
      change fun s => { s with monitors := update s.monitors cpu (dv :: s.monitors cpu) }

/-- The devices a monitor is going to poll are found and pinned. -/
def monitorStart : KM Unit := do
  let ps ← theProcessor
  let p ← derefAs .processor ps
  require (p.ps.psMode = .mon)
  loop (monitorDevice ps) 0 nDevicesPerMonitor

/-- While another CPU runs the processor the collector waits for it. -/
def processorGcCb (ps : Kobj) : KM Unit := do
  let p ← derefAs .processor ps
  if p.ps.psRunning then do
    let halted ← processorHalt ps
    if halted = false then halt .spin
  sharemapFree ps
  freeProcessor p.ps.psPid

/-! ### Collection -/

def gcCb (ko : Kobj) : KM Unit := do
  let o ← deref ko
  match o.koType with
  | .segment => segmentGcCb ko
  | .addressTree => atGcCb ko
  | .processor => processorGcCb ko
  | .share => shareGcCb ko
  | .device => pure ()

/-- The object at the head of the list leaves it, and is collected if nothing refers to it. -/
def gcObject (ko : Kobj) : KM Unit := do
  let o ← deref ko
  let cpu ← archCpu
  change fun s => { s with koGcList := update s.koGcList cpu (s.koGcList cpu).tail }
  if o.koRef = 0 then do
    gcCb ko
    kobjectFree ko

/-- One round of the loop of `kobject_gc_scan`. -/
def kobjectGcScan : KM Unit := do
  let cpu ← archCpu
  let s ← state
  match (s.koGcList cpu).head? with
  | none => pure ()
  | some ko => gcObject ko

end Corey.Kern
