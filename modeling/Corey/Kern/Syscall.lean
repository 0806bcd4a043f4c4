import Corey.Kern.Device

/-!
System calls (`kern/syscall.c`) and the kernel as a system of CPUs.

A call is executed for a processor, on the CPU that takes the step: the processor that runs
there, or, when a monitor polls, the one that configured the monitor. Besides calls and page
faults a CPU halts its processor, does one action of `share_action_scan`, or collects one object
of `kobject_gc_scan`. The steps of different CPUs come in any order.
-/

namespace Corey.Kern

open Corey.Comp Corey.Mem

/-- The calls that touch kernel objects. Names are left out; user memory that a call reads is
given as what it holds. -/
inductive Syscall
  | deviceAlloc (sh did pid : ℕ)
  | deviceConf (devref : SobjRef) (udc : UDeviceConf)
  | objGetName (obj : SobjRef)
  | shareAlloc (sh mask pid : ℕ)
  | shareAddref (dstSh srcSh obj : ℕ)
  | shareUnref (sh obj : ℕ)
  | segmentAlloc (sh numBytes pid : ℕ)
  | segmentCopy (dstSh : ℕ) (obj : SobjRef) (mode : PageSharingMode) (pid : ℕ)
  | segmentGetNbytes (obj : SobjRef)
  | segmentSetNbytes (obj : SobjRef) (nbytes : ℕ)
  | processorAlloc (sh pid : ℕ)
  | processorVector (obj : SobjRef) (uc : UContext)
  | processorSetInterval (obj : SobjRef)
  | processorHalt (obj : SobjRef)
  | processorSetDevice (psref : SobjRef) (i : ℕ) (devref : SobjRef)
  | selfDropShare (sh : ℕ)
  | atAlloc (sh interior pid : ℕ)
  | atGet (atref : SobjRef)
  | atSet (atref : SobjRef) (ents : List UAddressMapping)
  | atSetSlot (atref : SobjRef) (uam : UAddressMapping)

def idOf (ko : Kobj) : KM ℕ := do
  let o ← deref ko
  pure o.koId

section

variable (src : Kobj)

def sysDeviceAlloc (sh did pid : ℕ) : KM ℕ := do
  let dv ← deviceAlloc did (pid % word32)
  processorImportObj src sh dv
  idOf dv

def sysDeviceConf (devref : SobjRef) (udc : UDeviceConf) : KM ℕ := do
  let dv ← processorCoObj src devref (some .device)
  deviceConf dv udc
  pure 0

def sysObjGetName (obj : SobjRef) : KM ℕ := do
  let ko ← processorCoObj src obj none
  let _ ← deref ko
  pure 0

/-- `sh_mask` is an `int`. -/
def sysShareAlloc (sh mask pid : ℕ) : KM ℕ := do
  let s ← shareAlloc (mask % word32) (pid % word32)
  processorImportObj src sh s
  processorAddShare src s
  idOf s

def sysShareAddref (dstSh srcSh obj : ℕ) : KM ℕ := do
  let dst ← processorGetShare src dstSh
  let s ← processorGetShare src srcSh
  let ko ← shareCoObj s obj none
  let o ← deref ko
  if o.koType = .share then
    raise .inval
  else do
    shareImportObj dst ko
    pure 0

def sysShareUnref (sh obj : ℕ) : KM ℕ := do
  processorRemoveObj src ⟨sh, obj⟩
  pure 0

def sysSegmentAlloc (sh numBytes pid : ℕ) : KM ℕ := do
  let sg ← segmentAlloc (pid % word32)
  segmentSetNbytes sg numBytes
  processorImportObj src sh sg
  idOf sg

def sysSegmentCopy (dstSh : ℕ) (obj : SobjRef) (mode : PageSharingMode) (pid : ℕ) : KM ℕ := do
  let ko ← processorCoObj src obj (some .segment)
  let sg ← segmentCopy ko mode (pid % word32)
  processorImportObj src dstSh sg
  idOf sg

def sysSegmentGetNbytes (obj : SobjRef) : KM ℕ := do
  let ko ← processorCoObj src obj (some .segment)
  let n ← segmentGetNpage ko
  pure (n * pgsize)

def sysSegmentSetNbytes (obj : SobjRef) (nbytes : ℕ) : KM ℕ := do
  let ko ← processorCoObj src obj (some .segment)
  segmentSetNbytes ko nbytes
  pure 0

def sysProcessorAlloc (sh pid : ℕ) : KM ℕ := do
  let ps ← processorAlloc (pid % word32)
  processorImportObj src sh ps
  idOf ps

def sysProcessorVector (obj : SobjRef) (uc : UContext) : KM ℕ := do
  let ps ← processorCoObj src obj (some .processor)
  processorVector ps uc
  pure 0

/-- The timer is not modelled. -/
def sysProcessorSetInterval (obj : SobjRef) : KM ℕ := do
  let ps ← processorCoObj src obj (some .processor)
  let _ ← derefAs .processor ps
  pure 0

def sysProcessorHalt (obj : SobjRef) : KM ℕ := do
  let ps ← processorCoObj src obj (some .processor)
  let _ ← processorHalt ps
  pure 0

def sysProcessorSetDevice (psref : SobjRef) (i : ℕ) (devref : SobjRef) : KM ℕ := do
  let ps ← processorCoObj src psref (some .processor)
  processorSetDevice ps i devref
  pure 0

def sysSelfDropShare (sh : ℕ) : KM ℕ := do
  processorRemoveShare src sh
  pure 0

def sysAtAlloc (sh interior pid : ℕ) : KM ℕ := do
  let a ← atAlloc interior (pid % word32)
  processorImportObj src sh a
  idOf a

/-- The slots are copied out. -/
def sysAtGet (atref : SobjRef) : KM ℕ := do
  let a ← processorCoObj src atref (some .addressTree)
  let _ ← derefAs .addressTree a
  pure 0

def sysAtSet (atref : SobjRef) (ents : List UAddressMapping) : KM ℕ := do
  let a ← processorCoObj src atref (some .addressTree)
  atFromUser a ents
  pure 0

def sysAtSetSlot (atref : SobjRef) (uam : UAddressMapping) : KM ℕ := do
  let a ← processorCoObj src atref (some .addressTree)
  atSetUslot a uam
  pure 0

/-- `syscall_exec` -/
def kernSyscall : Syscall → KM ℕ
  | .deviceAlloc sh did pid => sysDeviceAlloc src sh did pid
  | .deviceConf devref udc => sysDeviceConf src devref udc
  | .objGetName obj => sysObjGetName src obj
  | .shareAlloc sh mask pid => sysShareAlloc src sh mask pid
  | .shareAddref dstSh srcSh obj => sysShareAddref src dstSh srcSh obj
  | .shareUnref sh obj => sysShareUnref src sh obj
  | .segmentAlloc sh numBytes pid => sysSegmentAlloc src sh numBytes pid
  | .segmentCopy dstSh obj mode pid => sysSegmentCopy src dstSh obj mode pid
  | .segmentGetNbytes obj => sysSegmentGetNbytes src obj
  | .segmentSetNbytes obj nbytes => sysSegmentSetNbytes src obj nbytes
  | .processorAlloc sh pid => sysProcessorAlloc src sh pid
  | .processorVector obj uc => sysProcessorVector src obj uc
  | .processorSetInterval obj => sysProcessorSetInterval src obj
  | .processorHalt obj => sysProcessorHalt src obj
  | .processorSetDevice psref i devref => sysProcessorSetDevice src psref i devref
  | .selfDropShare sh => sysSelfDropShare src sh
  | .atAlloc sh interior pid => sysAtAlloc src sh interior pid
  | .atGet atref => sysAtGet src atref
  | .atSet atref ents => sysAtSet src atref ents
  | .atSetSlot atref uam => sysAtSetSlot src atref uam

end

/-! ### The system -/

/-- What a CPU does in one step. -/
inductive Act
  | syscall (c : Syscall)
  | fault (fuel va reqflags : ℕ)
  | halt
  | scan
  | gc
  | monitor
  | poll (dv : Kobj) (c : Syscall)

structure Event where
  cpu : ℕ
  act : Act

/-- A system monitor executes one call. -/
def devicePoll (dv : Kobj) (c : Syscall) : KM Unit := do
  let cpu ← archCpu
  let s ← state
  require (dv ∈ s.monitors cpu)
  let o ← derefAs .device dv
  let src ← need .panic (s.sysmon o.dv.dvDh).src
  let _ ← attempt (kernSyscall src c)
  pure ()

def Act.body : Act → KM Unit
  | .syscall c => do
    let src ← theProcessor
    let _ ← kernSyscall src c
    pure ()
  | .fault fuel va reqflags => do
    let ps ← theProcessor
    let p ← derefAs .processor ps
    let a ← need .gone p.ps.psAt
    atPagefault fuel a va reqflags
  | .halt => do
    let ps ← theProcessor
    let _ ← processorHalt ps
    pure ()
  | .scan => shareActionScan
  | .gc => kobjectGcScan
  | .monitor => monitorStart
  | .poll dv c => devicePoll dv c

/-- The machine as CPU `cpu` sees it. -/
def Machine.at (cpu : ℕ) (s : Machine) : Machine :=
  { s with forest := { s.forest with mem := { s.forest.mem with cpu := cpu } } }

/-- A call that returns an error is a step, too. -/
def Event.step (e : Event) (s : Machine) : Option Machine :=
  if e.cpu < s.ncpu then e.act.body.next (s.at e.cpu) else none

/-- `user_bootstrap`. The segments of the program that is loaded, which are made and mapped as
calls of the program could do it, are left out. -/
def userBootstrap : KM Unit := do
  let sh ← shareAlloc (word32 - 1) 0
  let ps ← processorAlloc 0
  processorAddShare ps sh
  shareImportObj sh ps
  let a ← atAlloc 0 0
  shareImportObj sh a
  let shId ← idOf sh
  let aId ← idOf a
  processorVector ps { ucAt := ⟨shId, aId⟩ }

/-- The allocator of the machine refuses the calls that `d` names. -/
def Machine.denying (d : ℕ → Bool) (s : Machine) : Machine :=
  { s with forest := { s.forest with mem := { s.forest.mem with deny := d } } }

/-- A machine with `k` pages after booting. -/
def bootMachine (k ncpu ndev : ℕ) : Option Machine :=
  (userBootstrap.result (bareMachine k ncpu ndev)).map Prod.snd

/-- The kernel, from the state it boots into. Later on the allocator may fail at any call. -/
def kernel : System Machine Event where
  init s := ∃ k d ncpu ndev, ncpu ≤ josNcpu ∧ (bootMachine k ncpu ndev).map (·.denying d) = some s
  step e s := e.step s

end Corey.Kern
