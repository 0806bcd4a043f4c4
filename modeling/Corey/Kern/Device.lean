import Corey.Kern.Processor

/-!
Devices (`kern/device.c`), of which only the system monitors are modelled (`kern/sysmon.c`).

A system monitor executes system calls that a processor has written into a page it shares with
the monitor. It executes them for the processor that configured it, on the CPU that polls it.
-/

namespace Corey.Kern

open Corey.Comp Corey.Mem

def deviceAlloc (did pid : ℕ) : KM Kobj := do
  let s ← state
  if s.ndev < did ∨ did = 0 then raise .inval
  else if s.alloced (did - 1) then raise .busy
  else do
    change fun s => { s with alloced := Function.update s.alloced (did - 1) true }
    let dv ← kobjectAlloc .device pid
    change (Machine.modObj dv fun o => { o with dv := { dvDh := did - 1 } })
    pure dv

/-- `struct u_device_conf`, as far as a monitor reads it. -/
inductive UDeviceConf
  | sysmon (seg : SobjRef) (offset numSlots : ℕ)
  | sysmonNic (seg nic : SobjRef)

/-- `sizeof(struct jsm_slot)` -/
def jsmSlotSize : ℕ := 80

def nNicCache : ℕ := 2

def setSysmon (sm : ℕ) (f : SysmonDevice → SysmonDevice) : KM Unit :=
  change fun s => { s with sysmon := Function.update s.sysmon sm (f (s.sysmon sm)) }

def sysmonConf (sm : ℕ) : UDeviceConf → KM Unit
  | .sysmon seg offset numSlots => do
    let src ← theProcessor
    if offset % pgsize ≠ 0 then raise .inval
    else if pgsize < numSlots * jsmSlotSize then raise .inval
    else do
      let sg ← processorCoObj src seg (some .segment)
      let _ ← segmentGetPage sg (offset / pgsize) pageSharedCow
      setSysmon sm fun d => { d with src := some src, numSlots := numSlots }
  | .sysmonNic seg nic => do
    let src ← theProcessor
    let s ← state
    if nNicCache ≤ (s.sysmon sm).nicCache.length then raise .noSpace
    else do
      let sg ← processorCoObj src seg (some .segment)
      let dv ← processorCoObj src nic (some .device)
      kobjectIncref sg
      kobjectIncref dv
      setSysmon sm fun d => { d with nicCache := (sg, dv) :: d.nicCache }

def deviceConf (dv : Kobj) (udc : UDeviceConf) : KM Unit := do
  let o ← derefAs .device dv
  sysmonConf o.dv.dvDh udc

end Corey.Kern
