import Corey.Kern.UserTable

/-!
Access to user memory (`kern/uaccess.c`) by the system calls (`kern/syscall.c`).

A handler sets a flag of its CPU before it touches user memory and clears it afterwards. A page
fault that cannot be handled clears the flag, too, and jumps back to where it was set, from where
the handler returns. What user memory holds, and whether an access to it faults for good, is left
open; so is what the handled faults do to the machine.
-/

namespace Corey.Kern.Uaccess

open Corey.Comp Corey.Mem

/-! ### Accesses -/

/-- User memory, as the accesses of one call find it, in their order. -/
structure User where
  /-- the fault of an access is not handled -/
  fails : ℕ → Bool
  /-- what the handling of its faults does -/
  serves : ℕ → Machine → Machine
  word : ℕ → ℕ
  context : ℕ → UContext
  mapping : ℕ → UAddressMapping
  table : ℕ → UserTable
  /-- a bound on the depth of the faults in `check_user_access` -/
  fuel : ℕ

structure Ustate where
  machine : Machine
  /-- the flag of the CPU that runs -/
  uaccessStart : Bool
  /-- the accesses so far -/
  accesses : ℕ

abbrev AM := Comp Errno Ustate

/-- What is done without user memory. -/
def kern {α : Type} (m : KM α) : AM α := zoom Ustate.machine (fun t s => { s with machine := t }) m

def uaccessStart : AM Unit := do
  let s ← state
  require (s.uaccessStart = false)
  change fun s => { s with uaccessStart := true }

def uaccessStop : AM Unit := do
  let s ← state
  require (s.uaccessStart = true)
  change fun s => { s with uaccessStart := false }

/-- The jump back to `uaccess_start` returns an error from there, and so from the handler. -/
def uaccessError : AM Unit := do
  uaccessStop
  raise .inval

/-- Outside a section a fault that is not handled is a panic, which `uaccess_stop` is as well. -/
def access (u : User) : AM ℕ := do
  let s ← state
  change fun s => { s with machine := u.serves s.accesses s.machine, accesses := s.accesses + 1 }
  if u.fails s.accesses then uaccessError
  pure s.accesses

def touch (u : User) : AM Unit := do
  let _ ← access u
  pure ()

def read (u : User) : AM ℕ := do
  let n ← access u
  pure (u.word n)

def readRef (u : User) : AM SobjRef := do
  let share ← read u
  let object ← read u
  pure ⟨share, object⟩

/-- `check(uaccess_start()); … uaccess_stop();` -/
def userAccess {α : Type} (m : AM α) : AM α := do
  uaccessStart
  let a ← m
  uaccessStop
  pure a

/-! ### Devices -/

inductive DeviceKind | disk | nic | vnic | cons | sysmon
  deriving DecidableEq

/-- The devices that have been registered; there is no room for more than 64. -/
structure Devices where
  dev : List DeviceKind
  le : dev.length ≤ 64
  /-- what a driver answers that is given a buffer, or a counter to set -/
  answer : Option Errno := none

/-- `array_size(udl->dev)` -/
def nDeviceList : ℕ := 64

/-- The values of `device_conf_t`. -/
def deviceConfIrq : ℕ := 0
def deviceConfVnicRing : ℕ := 1
def deviceConfSysmon : ℕ := 2
def deviceConfSysmonNic : ℕ := 3

/-- A callback that is not there: the processor fetches from address 0, where no code of the
kernel is. -/
def callNull {α : Type} (u : User) : AM α := do
  touch u
  halt .badType

def Devices.reply (hw : Devices) : AM Unit :=
  match hw.answer with
  | none => pure ()
  | some e => raise e

def coObj (src : Option Kobj) (r : SobjRef) (t : KobjType) : KM Kobj := do
  let ps ← need .gone src
  processorCoObj ps r (some t)

section

variable (hw : Devices) (u : User)

def deviceList : AM Unit := do
  loop (fun i => if nDeviceList ≤ i then raise .noSpace else touch u) 0 hw.dev.length
  touch u

/-- `disk_stat`, `nic_stat` -/
def deviceStat (dv : Kobj) : AM Unit := do
  let o ← kern (derefAs .device dv)
  match hw.dev[o.dv.dvDh]? with
  | some .disk | some .nic | some .vnic => touch u
  | some .cons | some .sysmon => callNull u
  | none => halt .gone

/-- The first loop of `disk_conf` and `nic_conf`: turning an interrupt on or off. -/
def irqConf : AM Unit := do
  let enable ← read u
  if enable = 0 then pure ()
  else do
    let pid ← read u
    let s ← state
    if s.machine.ncpu ≤ pid then raise .inval else touch u

def diskConf : AM Unit := do
  let type ← read u
  if type ≠ deviceConfIrq then raise .inval else irqConf u

/-- `sizeof(struct vnic_ring)` is the size of a page. -/
def vnicConf : AM Unit := do
  let type ← read u
  if type = deviceConfVnicRing then do
    let src ← kern processorSched
    let seg ← readRef u
    let sg ← kern (coObj src seg .segment)
    let offset ← read u
    let _ ← kern (segmentGetPage sg (offset / pgsize) pageSharedCow)
    let offset ← read u
    if offset % pgsize ≠ 0 then raise .inval else pure ()
  else raise .inval

/-- Only the driver of virtual cards has an `nc_conf`. -/
def nicConf (virtual : Bool) : AM Unit := do
  let type ← read u
  if type = deviceConfIrq then irqConf u
  else if virtual then vnicConf u
  else raise .inval

/-- `device_conf_sysmon` -/
def slotsConf (src : Option Kobj) (sm : ℕ) : AM Unit := do
  let offset ← read u
  if offset % pgsize ≠ 0 then raise .inval
  else do
    let numSlots ← read u
    if pgsize < numSlots * jsmSlotSize then raise .inval
    else do
      let seg ← readRef u
      let sg ← kern (coObj src seg .segment)
      let offset ← read u
      let _ ← kern (segmentGetPage sg (offset / pgsize) pageSharedCow)
      let numSlots ← read u
      kern (setSysmon sm fun d => { d with src := src, numSlots := numSlots })

/-- `device_conf_sysmon_nic` -/
def nicCacheConf (src : Option Kobj) (sm : ℕ) : AM Unit := do
  let s ← state
  if nNicCache ≤ (s.machine.sysmon sm).nicCache.length then raise .noSpace
  else do
    let seg ← readRef u
    let sg ← kern (coObj src seg .segment)
    let nic ← readRef u
    let dv ← kern (coObj src nic .device)
    kern (kobjectIncref sg)
    kern (kobjectIncref dv)
    kern (setSysmon sm fun d => { d with nicCache := (sg, dv) :: d.nicCache })

def sysmonConf (sm : ℕ) : AM Unit := do
  let src ← kern processorSched
  let type ← read u
  if type = deviceConfSysmon then slotsConf u src sm
  else if type = deviceConfSysmonNic then nicCacheConf u src sm
  else raise .inval

def deviceConf (dv : Kobj) : AM Unit := do
  let o ← kern (derefAs .device dv)
  match hw.dev[o.dv.dvDh]? with
  | some .disk => diskConf u
  | some .nic => nicConf u false
  | some .vnic => nicConf u true
  | some .cons => callNull u
  | some .sysmon => sysmonConf u o.dv.dvDh
  | none => halt .gone

/-- `sizeof(struct diskbuf_hdr)` -/
def diskbufSize : ℕ := 16

/-- The page is the kernel's; a system monitor has no `dh_feed`. -/
def deviceBuf (dv sg : Kobj) (offset : ℕ) : AM Unit := do
  let _ ← kern (segmentGetPage sg (offset / pgsize) pageSharedCow)
  if pgsize - offset % pgsize < diskbufSize then raise .inval
  else do
    let o ← kern (derefAs .device dv)
    match hw.dev[o.dv.dvDh]? with
    | some .sysmon | none => halt .gone
    | _ => hw.reply

/-! ### The handlers -/

variable (src : Kobj)

def sysConsPuts (size : ℕ) : AM ℕ := do
  userAccess (loop (fun _ => touch u) 0 size)
  pure 0

/-- `arch_locality_fill` writes a matrix of CPUs, the diagonal once more, and their number. -/
def sysLocalityGet : AM ℕ := do
  let s ← state
  userAccess do
    loop (fun _ => do
      loop (fun _ => touch u) 0 s.machine.ncpu
      touch u) 0 s.machine.ncpu
    touch u
  pure 0

def sysDeviceList : AM ℕ := do
  userAccess (deviceList hw u)
  pure 0

def sysDeviceStat (devref : SobjRef) : AM ℕ := do
  let dv ← kern (processorCoObj src devref (some .device))
  userAccess (deviceStat hw u dv)
  pure 0

def sysDeviceConf (devref : SobjRef) : AM ℕ := do
  let dv ← kern (processorCoObj src devref (some .device))
  userAccess (deviceConf hw u dv)
  pure 0

def sysDeviceBuf (devref sgref : SobjRef) (offset : ℕ) : AM ℕ := do
  let dv ← kern (processorCoObj src devref (some .device))
  let sg ← kern (processorCoObj src sgref (some .segment))
  deviceBuf hw dv sg offset
  pure 0

/-- `debug_call`: a line on the console, a counter, the profiler. -/
def sysDebug (op a0 : ℕ) : AM ℕ := do
  if op = 0 then pure 0
  else if op = 1 then do
    hw.reply
    pure 0
  else if op = 2 ∧ a0 < 4 then pure 0
  else raise .inval

def kobjNameLen : ℕ := 32

/-- `strncpy` goes on to the end after the last character. -/
def kobjectSetName : AM Unit := userAccess (loop (fun _ => touch u) 0 (kobjNameLen - 1))

def sysObjGetName (obj : SobjRef) : AM ℕ := do
  let ko ← kern (processorCoObj src obj none)
  let _ ← kern (deref ko)
  userAccess (loop (fun _ => touch u) 0 kobjNameLen)
  pure 0

def sysShareAlloc (sh mask pid : ℕ) : AM ℕ := do
  let s ← kern (shareAlloc (mask % word32) (pid % word32))
  kobjectSetName u
  kern (processorImportObj src sh s)
  kern (processorAddShare src s)
  kern (idOf s)

def sysSegmentAlloc (sh numBytes pid : ℕ) : AM ℕ := do
  let sg ← kern (segmentAlloc (pid % word32))
  kobjectSetName u
  kern (segmentSetNbytes sg numBytes)
  kern (processorImportObj src sh sg)
  kern (idOf sg)

def sysSegmentCopy (dstSh : ℕ) (obj : SobjRef) (mode pid : ℕ) : AM ℕ := do
  let ko ← kern (processorCoObj src obj (some .segment))
  let sg ← kern (segmentCopy ko mode (pid % word32))
  kobjectSetName u
  kern (processorImportObj src dstSh sg)
  kern (idOf sg)

def sysProcessorAlloc (sh pid : ℕ) : AM ℕ := do
  let ps ← kern (processorAlloc (pid % word32))
  kern (processorImportObj src sh ps)
  kobjectSetName u
  kern (idOf ps)

def sysProcessorVector (obj : SobjRef) : AM ℕ := do
  let n ← userAccess (access u)
  kern (Kern.sysProcessorVector src obj (u.context n))

def sysSelfGetAs : AM ℕ := do
  userAccess do
    touch u
    touch u
  pure 0

def sysSelfGetPid : AM ℕ := do
  let p ← kern (derefAs .processor src)
  pure p.ps.psPid

def sysAtAlloc (sh interior pid : ℕ) : AM ℕ := do
  let a ← kern (atAlloc interior (pid % word32))
  kern (processorImportObj src sh a)
  kobjectSetName u
  kern (idOf a)

/-- What works on a table in user memory that has been checked beforehand. -/
def onUat {α : Type} (m : UM α) : AM α :=
  zoom (fun s => (s.machine, u.table s.accesses)) (fun t s => { s with machine := t.1 }) m

def sysAtGet (atref : SobjRef) (uat : ℕ) : AM ℕ := do
  let a ← kern (processorCoObj src atref (some .addressTree))
  onUat u (atToUser u.fuel a uat)
  pure 0

def sysAtSet (atref : SobjRef) (uat : ℕ) : AM ℕ := do
  let a ← kern (processorCoObj src atref (some .addressTree))
  onUat u (atFromUserTable u.fuel a uat)
  pure 0

def sysAtSetSlot (atref : SobjRef) : AM ℕ := do
  let a ← kern (processorCoObj src atref (some .addressTree))
  let n ← userAccess (access u)
  kern (atSetUslot a (u.mapping n))
  pure 0

/-- `arch_reinit` does not return. -/
def sysMachineReinit (size : ℕ) : AM ℕ := do
  if pgsize ≤ size then raise .inval
  else do
    userAccess (loop (fun _ => touch u) 0 size)
    halt .spin

end

/-! ### The call -/

inductive Sysno
  | consPuts | consFlush | localityGet | deviceList | deviceAlloc | deviceStat | deviceConf
  | deviceBuf | debug | objGetName | shareAlloc | shareAddref | shareUnref | segmentCopy
  | segmentAlloc | segmentGetNbytes | segmentSetNbytes | processorAlloc | processorCurrent
  | processorVector | processorAddref | processorUnref | processorSetInterval | processorHalt
  | processorSetDevice | selfFpEnable | selfDropShare | selfGetAs | selfGetPid | atAlloc | atGet
  | atSet | atSetSlot | machineReinit
  deriving DecidableEq

/-- `ALL_SYSCALLS`, in the order of their numbers. -/
def allSyscalls : List Sysno :=
  [.consPuts, .consFlush, .localityGet, .deviceList, .deviceAlloc, .deviceStat, .deviceConf,
    .deviceBuf, .debug, .objGetName, .shareAlloc, .shareAddref, .shareUnref, .segmentCopy,
    .segmentAlloc, .segmentGetNbytes, .segmentSetNbytes, .processorAlloc, .processorCurrent,
    .processorVector, .processorAddref, .processorUnref, .processorSetInterval, .processorHalt,
    .processorSetDevice, .selfFpEnable, .selfDropShare, .selfGetAs, .selfGetPid, .atAlloc, .atGet,
    .atSet, .atSetSlot, .machineReinit]

structure Args where
  a1 : ℕ := 0
  a2 : ℕ := 0
  a3 : ℕ := 0
  a4 : ℕ := 0
  a5 : ℕ := 0
  a6 : ℕ := 0
  a7 : ℕ := 0

/-- `syscall_exec`; two numbers have no handler. -/
def syscallExec (hw : Devices) (u : User) (src : Kobj) (a : Args) : Sysno → AM ℕ
  | .consPuts => sysConsPuts u a.a2
  | .consFlush => pure 0
  | .localityGet => sysLocalityGet u
  | .deviceList => sysDeviceList hw u
  | .deviceAlloc => kern (sysDeviceAlloc src a.a1 a.a2 a.a3)
  | .deviceStat => sysDeviceStat hw u src ⟨a.a1, a.a2⟩
  | .deviceConf => sysDeviceConf hw u src ⟨a.a1, a.a2⟩
  | .deviceBuf => sysDeviceBuf hw src ⟨a.a1, a.a2⟩ ⟨a.a3, a.a4⟩ a.a5
  | .debug => sysDebug hw a.a1 a.a2
  | .objGetName => sysObjGetName u src ⟨a.a1, a.a2⟩
  | .shareAlloc => sysShareAlloc u src a.a1 a.a2 a.a4
  | .shareAddref => kern (sysShareAddref src a.a1 a.a2 a.a3)
  | .shareUnref => kern (sysShareUnref src a.a1 a.a2)
  | .segmentAlloc => sysSegmentAlloc u src a.a1 a.a2 a.a4
  | .segmentCopy => sysSegmentCopy u src a.a1 ⟨a.a2, a.a3⟩ a.a5 a.a6
  | .segmentGetNbytes => kern (sysSegmentGetNbytes src ⟨a.a1, a.a2⟩)
  | .segmentSetNbytes => kern (sysSegmentSetNbytes src ⟨a.a1, a.a2⟩ a.a3)
  | .processorAlloc => sysProcessorAlloc u src a.a1 a.a3
  | .processorCurrent => kern (idOf src)
  | .processorVector => sysProcessorVector u src ⟨a.a1, a.a2⟩
  | .processorSetInterval => kern (sysProcessorSetInterval src ⟨a.a1, a.a2⟩)
  | .processorHalt => kern (sysProcessorHalt src ⟨a.a1, a.a2⟩)
  | .processorSetDevice => kern (sysProcessorSetDevice src ⟨a.a1, a.a2⟩ a.a3 ⟨a.a4, a.a5⟩)
  | .selfFpEnable => pure 0
  | .selfDropShare => kern (sysSelfDropShare src a.a1)
  | .selfGetAs => sysSelfGetAs u
  | .selfGetPid => sysSelfGetPid src
  | .atAlloc => sysAtAlloc u src a.a1 a.a2 a.a4
  | .atGet => sysAtGet u src ⟨a.a1, a.a2⟩ a.a3
  | .atSet => sysAtSet u src ⟨a.a1, a.a2⟩ a.a3
  | .atSetSlot => sysAtSetSlot u src ⟨a.a1, a.a2⟩
  | .machineReinit => sysMachineReinit u a.a2
  | .processorAddref | .processorUnref => raise .inval

def kernSyscall (hw : Devices) (u : User) (src : Kobj) (num : ℕ) (a : Args) : AM ℕ :=
  match allSyscalls[num]? with
  | some no => syscallExec hw u src a no
  | none => raise .inval

variable {hw : Devices} {u : User} {src dv : Kobj} {s s' : Ustate} {α β : Type}
  {Q : ℕ → Ustate → Prop} {m : AM α} {t : Machine} {sm n : ℕ} {ps : Option Kobj}

/-! ### Sections that cannot be left by an error -/

/-- The flag is not set, as between system calls. -/
def Idle (s : Ustate) : Prop := s.uaccessStart = false

def User.after (u : User) (s : Ustate) : Ustate :=
  { s with machine := u.serves s.accesses s.machine, accesses := s.accesses + 1 }

/-- Every error leaves the flag cleared. -/
def Guarded (m : AM α) : Prop := ∀ s, wp m (fun _ _ => True) (Exits.both Idle) s

lemma wp_access : wp (access u) Q (.both Idle) s ↔
      (u.fails s.accesses = false → Q s.accesses (u.after s)) := by
  simp only [access, uaccessError, uaccessStop, wp_bind, wp_state, wp_change]
  by_cases hf : u.fails s.accesses = true
  · rw [if_pos hf]
    simp only [wp_bind, wp_state, wp_require, wp_change, wp_raise]
    exact ⟨fun _ h => absurd (h.symm.trans hf) Bool.false_ne_true,
      fun _ => ⟨fun _ => rfl, fun _ => trivial⟩⟩
  · rw [if_neg hf, wp_pure]
    exact ⟨fun h _ => h, fun h => h (Bool.eq_false_iff.mpr hf)⟩

lemma wp_touch {Q : Unit → Ustate → Prop} :
    wp (touch u) Q (.both Idle) s ↔ (u.fails s.accesses = false → Q () (u.after s)) := by
  simp only [touch, wp_rules, wp_access]

lemma wp_read : wp (read u) Q (.both Idle) s ↔
      (u.fails s.accesses = false → Q (u.word s.accesses) (u.after s)) := by
  simp only [read, wp_rules, wp_access]

namespace Guarded

lemma pure (a : α) : Guarded (Pure.pure a : AM α) := fun _ => trivial

lemma halt (w : Stop) : Guarded (Comp.halt w : AM α) := fun _ => trivial

lemma bind {f : α → AM β} (hm : Guarded m) (hf : ∀ a, Guarded (f a)) : Guarded (m >>= f) :=
  fun s => wp_bind.mpr (wp_post (hm s) fun a t _ => hf a t)

lemma seq {m : AM Unit} {f : AM β} (hm : Guarded m) (hf : Guarded f) : Guarded (do m; f) :=
  bind hm fun _ => hf

lemma access : Guarded (Uaccess.access u) := fun _ => wp_access.mpr fun _ => trivial

lemma touch : Guarded (Uaccess.touch u) := fun _ => wp_touch.mpr fun _ => trivial

lemma loop {body : ℕ → AM Unit} :
    ∀ k i, (∀ j, i ≤ j → j < i + k → Guarded (body j)) → Guarded (Comp.loop body i k)
  | 0, _, _ => pure ()
  | k + 1, i, hb => seq (hb i le_rfl (by omega)) (loop k (i + 1) fun j h h' => hb j (by omega)
      (by omega))

lemma touches (k : ℕ) : Guarded (Comp.loop (fun _ => Uaccess.touch u) 0 k) :=
  loop k 0 fun _ _ _ => touch

lemma callNull : Guarded (Uaccess.callNull u : AM α) := seq touch (halt _)

end Guarded

lemma wp_userAccess (hs : Idle s) : wp (userAccess m) (fun _ => Idle) (.both Idle) s ↔
      wp m (fun _ _ => True) (.both Idle) { s with uaccessStart := true } := by
  simp only [userAccess, uaccessStart, uaccessStop, wp_rules]
  have hstop : ∀ t : Ustate, (t.uaccessStart = true → Idle { t with uaccessStart := false }) ∧
      (¬ t.uaccessStart = true → True) := fun _ => ⟨fun _ => rfl, fun _ => trivial⟩
  constructor
  · exact fun h => wp_post (h.1 hs) fun _ _ _ => trivial
  · exact fun h => ⟨fun _ => wp_post h fun _ t _ => hstop t, fun hno => absurd hs hno⟩

lemma userAccess_keeps (hm : Guarded m) : Keeps Idle (userAccess m) := fun _ hs =>
  wp_post ((wp_userAccess hs).mpr (hm _)) fun _ _ ht => ⟨ht, trivial⟩

lemma kern_keeps (m : KM α) : Keeps Idle (kern m) := fun _ hs =>
  wp_zoom.mpr (wp_of_forall (fun _ _ => ⟨hs, trivial⟩) (fun _ _ => hs) fun _ _ => trivial)

lemma onUat_keeps (m : UM α) : Keeps Idle (onUat u m) := fun _ hs =>
  wp_zoom.mpr (wp_of_forall (fun _ _ => ⟨hs, trivial⟩) (fun _ _ => hs) fun _ _ => trivial)

/-! ### The handlers other than `sys_device_conf` -/

lemma reply_keeps (hw : Devices) : Keeps Idle hw.reply := by
  rw [Devices.reply]
  cases hw.answer with
  | none => exact .pure fun _ _ => trivial
  | some e => exact .raise e

lemma deviceList_guarded : Guarded (deviceList hw u) := by
  refine .seq (.loop _ 0 fun j _ hj => ?_) .touch
  have hroom : ¬ nDeviceList ≤ j := by
    have := hw.le
    simp only [nDeviceList]
    omega
  rw [if_neg hroom]
  exact .touch

lemma deviceStat_keeps (dv : Kobj) (hs : Idle s) :
    wp (userAccess (deviceStat hw u dv)) (fun _ t => Idle t ∧ True) (.both Idle) s := by
  refine wp_post ((wp_userAccess hs).mpr ?_) fun _ _ ht => ⟨ht, trivial⟩
  simp only [deviceStat, wp_bind, kern, wp_zoom, wp_derefAs_any]
  intro _ _
  split
  · exact Guarded.touch _
  · exact Guarded.touch _
  · exact Guarded.touch _
  · exact Guarded.callNull _
  · exact Guarded.callNull _
  · trivial

lemma deviceBuf_keeps (hw : Devices) (dv sg : Kobj) (offset : ℕ) :
    Keeps Idle (deviceBuf hw dv sg offset) :=
  .bind (kern_keeps _) fun _ => .ite (.raise _) <| .bind (kern_keeps _) fun o => by
    split
    · exact .halt _
    · exact .halt _
    · exact reply_keeps hw

lemma kobjectSetName_keeps : Keeps Idle (kobjectSetName u) := userAccess_keeps (.touches _)

lemma syscallExec_keeps {no : Sysno} (hno : no ≠ .deviceConf) (a : Args) :
    Keeps Idle (syscallExec hw u src a no) := by
  cases no with
  | deviceConf => exact absurd rfl hno
  | consPuts => exact .seq (userAccess_keeps (.touches _)) (.pure fun _ _ => trivial)
  | consFlush | selfFpEnable => exact .pure fun _ _ => trivial
  | localityGet =>
    exact .bind .state fun _ => .seq (userAccess_keeps (.seq
      (.loop _ 0 fun _ _ _ => .seq (.touches _) .touch) .touch)) (.pure fun _ _ => trivial)
  | deviceList => exact .seq (userAccess_keeps deviceList_guarded) (.pure fun _ _ => trivial)
  | deviceStat =>
    exact .bind (kern_keeps _) fun dv => .seq (fun _ hs => deviceStat_keeps dv hs)
      (.pure fun _ _ => trivial)
  | deviceBuf =>
    exact .bind (kern_keeps _) fun _ => .bind (kern_keeps _) fun _ =>
      .seq (deviceBuf_keeps hw _ _ _) (.pure fun _ _ => trivial)
  | debug =>
    exact .ite (.pure fun _ _ => trivial) <| .ite
      (.seq (reply_keeps hw) (.pure fun _ _ => trivial)) <|
      .ite (.pure fun _ _ => trivial) (.raise _)
  | objGetName =>
    exact .bind (kern_keeps _) fun _ => .bind (kern_keeps _) fun _ =>
      .seq (userAccess_keeps (.touches _)) (.pure fun _ _ => trivial)
  | shareAlloc | segmentAlloc =>
    exact .bind (kern_keeps _) fun _ => .seq kobjectSetName_keeps <| .seq (kern_keeps _) <|
      .seq (kern_keeps _) (kern_keeps _)
  | segmentCopy =>
    exact .bind (kern_keeps _) fun _ => .bind (kern_keeps _) fun _ =>
      .seq kobjectSetName_keeps <| .seq (kern_keeps _) (kern_keeps _)
  | processorAlloc | atAlloc =>
    exact .bind (kern_keeps _) fun _ => .seq (kern_keeps _) <|
      .seq kobjectSetName_keeps (kern_keeps _)
  | processorVector => exact .bind (userAccess_keeps .access) fun _ => kern_keeps _
  | selfGetAs =>
    exact .seq (userAccess_keeps (.seq .touch .touch)) (.pure fun _ _ => trivial)
  | selfGetPid => exact .bind (kern_keeps _) fun _ => .pure fun _ _ => trivial
  | atGet | atSet =>
    exact .bind (kern_keeps _) fun _ => .seq (onUat_keeps _) (.pure fun _ _ => trivial)
  | atSetSlot =>
    exact .bind (kern_keeps _) fun _ => .bind (userAccess_keeps .access) fun _ =>
      .seq (kern_keeps _) (.pure fun _ _ => trivial)
  | machineReinit =>
    exact .ite (.raise _) (.seq (userAccess_keeps (.touches _)) (.halt _))
  | processorAddref | processorUnref => exact .raise _
  | deviceAlloc | shareAddref | shareUnref | segmentGetNbytes | segmentSetNbytes | processorCurrent
  | processorSetInterval | processorHalt | processorSetDevice | selfDropShare =>
    exact kern_keeps _

/-! ### Configurations that a device takes -/

def User.Got (u : User) (n : ℕ) : Prop := u.fails n = false

/-- The machine after `k` accesses from the `n`-th on. -/
def User.served (u : User) (n : ℕ) (t : Machine) : ℕ → Machine
  | 0 => t
  | k + 1 => u.serves (n + k) (u.served n t k)

/-- `m` returns no error in `t`, and where it returns `φ` holds. -/
def Answers (m : KM α) (t : Machine) (φ : α → Machine → Prop) : Prop := wp m φ Exits.mayStop t

/-- An interrupt is turned off, or sent to a CPU there is. -/
def IrqTakes (u : User) (t : Machine) (n : ℕ) : Prop :=
  u.Got n → u.word n ≠ 0 → u.Got (n + 1) → u.word (n + 1) < (u.served n t 2).ncpu

/-- The ring is the page of a segment. -/
def VnicTakes (u : User) (t : Machine) (n : ℕ) : Prop :=
  u.Got n → u.word n = deviceConfVnicRing ∧ (u.Got (n + 1) → u.Got (n + 2) →
    Answers (coObj ((u.serves n t).processors (u.serves n t).mem.cpu)
      ⟨u.word (n + 1), u.word (n + 2)⟩ .segment) (u.served n t 3) fun sg t1 =>
      u.Got (n + 3) →
        Answers (segmentGetPage sg (u.word (n + 3) / pgsize) pageSharedCow) (u.serves (n + 3) t1)
          fun _ _ => u.Got (n + 4) → u.word (n + 4) % pgsize = 0)

/-- The slots are in a page of a segment and fit into it. -/
def SlotsTake (u : User) (src : Option Kobj) (t : Machine) (n : ℕ) : Prop :=
  u.Got n → u.word n % pgsize = 0 ∧ (u.Got (n + 1) → u.word (n + 1) * jsmSlotSize ≤ pgsize ∧
    (u.Got (n + 2) → u.Got (n + 3) →
      Answers (coObj src ⟨u.word (n + 2), u.word (n + 3)⟩ .segment) (u.served n t 4) fun sg t1 =>
        u.Got (n + 4) →
          Answers (segmentGetPage sg (u.word (n + 4) / pgsize) pageSharedCow)
            (u.serves (n + 4) t1) fun _ _ => True))

/-- There is room for another pair of a segment and a device. -/
def NicTakes (u : User) (sm : ℕ) (src : Option Kobj) (t : Machine) (n : ℕ) : Prop :=
  (t.sysmon sm).nicCache.length < nNicCache ∧ (u.Got n → u.Got (n + 1) →
    Answers (coObj src ⟨u.word n, u.word (n + 1)⟩ .segment) (u.served n t 2) fun _ t1 =>
      u.Got (n + 2) → u.Got (n + 3) →
        Answers (coObj src ⟨u.word (n + 2), u.word (n + 3)⟩ .device) (u.served (n + 2) t1 2)
          fun _ _ => True)

/-- The device takes the configuration that user memory holds, as far as that can be read. -/
def DeviceKind.Takes (u : User) (sm : ℕ) (t : Machine) (n : ℕ) : DeviceKind → Prop
  | .disk => u.Got n → u.word n = deviceConfIrq ∧ IrqTakes u (u.serves n t) (n + 1)
  | .nic => u.Got n → u.word n = deviceConfIrq ∧ IrqTakes u (u.serves n t) (n + 1)
  | .vnic => u.Got n → (u.word n = deviceConfIrq → IrqTakes u (u.serves n t) (n + 1)) ∧
      (u.word n ≠ deviceConfIrq → VnicTakes u (u.serves n t) (n + 1))
  | .cons => True
  | .sysmon => u.Got n →
      (u.word n = deviceConfSysmon →
        SlotsTake u (t.processors t.mem.cpu) (u.serves n t) (n + 1)) ∧
      (u.word n = deviceConfSysmonNic →
        NicTakes u sm (t.processors t.mem.cpu) (u.serves n t) (n + 1)) ∧
      (u.word n = deviceConfSysmon ∨ u.word n = deviceConfSysmonNic)

/-! Inside a section the flag is set: an error of the kernel's functions leaves it so. -/

lemma wp_kern {m : KM α} {Q : α → Ustate → Prop} :
    wp (kern m) Q (.both Idle) ⟨t, true, n⟩ ↔ Answers m t fun a t => Q a ⟨t, true, n⟩ := by
  rw [kern, wp_zoom, Answers]
  exact ⟨fun h => wp_mono h (fun _ _ => id) fun _ _ h => Bool.noConfusion h,
    fun h => wp_mono h (fun _ _ => id) fun _ _ h => h.elim⟩

lemma wp_raise_busy {e : Errno} {Q : α → Ustate → Prop} :
    wp (raise e : AM α) Q (.both Idle) ⟨t, true, n⟩ ↔ False := iff_false_intro Bool.noConfusion

lemma wp_ite_raise {c : Prop} [Decidable c] {e : Errno} {Q : α → Ustate → Prop} :
    wp (if c then raise e else m) Q (.both Idle) ⟨t, true, n⟩ ↔
      ¬ c ∧ wp m Q (.both Idle) ⟨t, true, n⟩ := by
  by_cases hc : c
  · simp only [hc, if_true, wp_raise_busy, not_true, false_and]
  · simp only [hc, if_false, not_false_iff, true_and]

lemma wp_ite_else_raise {c : Prop} [Decidable c] {e : Errno} {Q : α → Ustate → Prop} :
    wp (if c then m else raise e) Q (.both Idle) ⟨t, true, n⟩ ↔
      c ∧ wp m Q (.both Idle) ⟨t, true, n⟩ := by
  rw [← ite_not, wp_ite_raise, not_not]

lemma answers_processorSched {φ : Option Kobj → Machine → Prop} :
    Answers processorSched t φ ↔ φ (t.processors t.mem.cpu) t := Iff.rfl

lemma answers_setSysmon {f : SysmonDevice → SysmonDevice} :
    Answers (setSysmon sm f) t (fun _ _ => True) ↔ True := Iff.rfl

lemma answers_kobjectIncref {ko : Kobj} :
    Answers (kobjectIncref ko) t (fun _ _ => True) ↔ True := by
  simp only [Answers, kobjectIncref, wp_rules, wp_deref, Exits.mayStop, implies_true, and_true]

lemma wp_readRef {Q : SobjRef → Ustate → Prop} :
    wp (readRef u) Q (.both Idle) s ↔ (u.Got s.accesses → u.Got (s.accesses + 1) →
      Q ⟨u.word s.accesses, u.word (s.accesses + 1)⟩ (u.after (u.after s))) := by
  simp only [readRef, wp_rules, wp_read]
  rfl

lemma irqConf_iff :
    wp (irqConf u) (fun _ _ => True) (.both Idle) ⟨t, true, n⟩ ↔ IrqTakes u t n := by
  simp only [irqConf, wp_bind, wp_read, User.after, wp_ite, wp_pure, wp_state, wp_touch,
    wp_raise_busy, implies_true, true_and, and_true, imp_false, not_le]
  rfl

lemma vnicConf_iff :
    wp (vnicConf u) (fun _ _ => True) (.both Idle) ⟨t, true, n⟩ ↔ VnicTakes u t n := by
  simp only [vnicConf, wp_bind, wp_read, User.after, wp_ite_else_raise, wp_ite_raise, wp_kern,
    answers_processorSched, wp_readRef, wp_pure, ne_eq, not_not, and_true]
  rfl

lemma slotsConf_iff :
    wp (slotsConf u ps sm) (fun _ _ => True) (.both Idle) ⟨t, true, n⟩ ↔ SlotsTake u ps t n := by
  simp only [slotsConf, wp_bind, wp_read, User.after, wp_ite_raise, wp_kern, wp_readRef,
    answers_setSysmon, implies_true, ne_eq, not_not, not_lt]
  rfl

lemma nicCacheConf_iff :
    wp (nicCacheConf u ps sm) (fun _ _ => True) (.both Idle) ⟨t, true, n⟩ ↔
      NicTakes u sm ps t n := by
  simp only [nicCacheConf, wp_bind, wp_state, wp_ite_raise, wp_kern, wp_readRef, User.after,
    answers_kobjectIncref, answers_setSysmon, not_le]
  rfl

lemma diskConf_iff :
    wp (diskConf u) (fun _ _ => True) (.both Idle) ⟨t, true, n⟩ ↔
      DeviceKind.disk.Takes u 0 t n := by
  simp only [diskConf, wp_bind, wp_read, User.after, wp_ite_raise, irqConf_iff, ne_eq, not_not]
  rfl

lemma nicConf_iff (virtual : Bool) :
    wp (nicConf u virtual) (fun _ _ => True) (.both Idle) ⟨t, true, n⟩ ↔
      (if virtual then DeviceKind.vnic else .nic).Takes u 0 t n := by
  cases virtual with
  | false =>
    simp only [nicConf, Bool.false_eq_true, if_false, wp_bind, wp_read, User.after,
      wp_ite_else_raise, irqConf_iff]
    rfl
  | true =>
    simp only [nicConf, if_true, wp_bind, wp_read, User.after, wp_ite, irqConf_iff, vnicConf_iff]
    rfl

lemma sysmonConf_iff :
    wp (sysmonConf u sm) (fun _ _ => True) (.both Idle) ⟨t, true, n⟩ ↔
      DeviceKind.sysmon.Takes u sm t n := by
  have hne : deviceConfSysmonNic ≠ deviceConfSysmon := by decide
  simp only [sysmonConf, wp_bind, wp_kern, answers_processorSched, wp_read, User.after, wp_ite,
    wp_raise_busy, slotsConf_iff, nicCacheConf_iff, DeviceKind.Takes, imp_false]
  refine forall_congr' fun _ => and_congr_right fun _ => ?_
  constructor
  · exact fun h => ⟨fun hnic => (h (hnic ▸ hne)).1 hnic,
      or_iff_not_imp_left.mpr fun hno => not_not.mp (h hno).2⟩
  · exact fun h hno => ⟨h.1, fun hnic => h.2.elim hno hnic⟩

/-- The device with the object `dv` takes the configuration, if it is one. -/
def ConfTakes (hw : Devices) (u : User) (dv : Kobj) (t : Machine) (n : ℕ) : Prop :=
  ∀ k, (t.obj dv).live = true → (t.obj dv).koType = .device →
    hw.dev[(t.obj dv).dv.dvDh]? = some k → k.Takes u (t.obj dv).dv.dvDh t n

lemma deviceConf_iff :
    wp (deviceConf hw u dv) (fun _ _ => True) (.both Idle) ⟨t, true, n⟩ ↔
      ConfTakes hw u dv t n := by
  rw [deviceConf, wp_bind, wp_kern, Answers, wp_derefAs]
  simp only [implies_true, and_true, ConfTakes]
  rcases hk : hw.dev[(t.obj dv).dv.dvDh]? with _ | k
  · exact ⟨fun _ _ _ _ => nofun, fun _ _ _ => trivial⟩
  refine Iff.trans (imp_congr_right fun _ => imp_congr_right fun _ => ?_)
    ⟨fun h _ hl ht he => Option.some.inj he ▸ h hl ht, fun h hl ht => h k hl ht rfl⟩
  cases k with
  | disk => exact diskConf_iff
  | nic => exact nicConf_iff false
  | vnic => exact nicConf_iff true
  | cons => exact iff_true_intro (Guarded.callNull _)
  | sysmon => exact sysmonConf_iff

/-- If the call configures a device, the device takes the configuration. -/
def Takes (hw : Devices) (u : User) (src : Kobj) (num : ℕ) (a : Args) (s : Ustate) : Prop :=
  allSyscalls[num]? = some .deviceConf → ∀ dv t,
    processorCoObj src ⟨a.a1, a.a2⟩ (some .device) s.machine = (.ok dv, t) →
      ConfTakes hw u dv t s.accesses

lemma sysDeviceConf_iff (hs : Idle s) (devref : SobjRef) :
    wp (sysDeviceConf hw u src devref) (fun _ => Idle) (.both Idle) s ↔
      ∀ dv t, processorCoObj src devref (some .device) s.machine = (.ok dv, t) →
        ConfTakes hw u dv t s.accesses := by
  have hrest : ∀ dv t, wp (do userAccess (deviceConf hw u dv); pure 0) (fun _ => Idle)
      (Exits.both Idle) { s with machine := t } ↔ ConfTakes hw u dv t s.accesses := fun dv t => by
    rw [wp_bind, ← deviceConf_iff]
    exact wp_userAccess (s := { s with machine := t }) hs
  rw [sysDeviceConf, wp_bind, kern, wp_zoom]
  simp only [wp]
  rcases hco : processorCoObj src devref (some .device) s.machine with ⟨dv | e | w, t⟩
  · refine ⟨fun h dv' t' h' => ?_, fun h => (hrest dv t).mpr (h dv t rfl)⟩
    cases h'
    exact (hrest dv t).mp h
  · exact ⟨fun _ _ _ h => (by cases h), fun _ => hs⟩
  · exact ⟨fun _ _ _ h => (by cases h), fun _ => trivial⟩

lemma next_iff {I : Ustate → Prop} :
    (∀ s', m.next s = some s' → I s') ↔ wp m (fun _ => I) (Exits.both I) s := by
  simp only [next, wp]
  rcases m s with ⟨_ | _ | _, t⟩ <;> simp

/-- **User access mode is left** by every call that returns, exactly if a device that is
configured takes the configuration it finds in user memory. -/
theorem user_access_left_iff (hw : Devices) (u : User) (src : Kobj) (num : ℕ) (a : Args)
    (hs : Idle s) :
    (∀ s', (kernSyscall hw u src num a).next s = some s' → Idle s') ↔ Takes hw u src num a s := by
  rw [next_iff, kernSyscall, Takes]
  rcases hno : allSyscalls[num]? with _ | no
  · exact ⟨fun _ => nofun, fun _ => hs⟩
  by_cases hconf : no = .deviceConf
  · subst hconf
    exact (sysDeviceConf_iff hs _).trans ⟨fun h _ => h, fun h => h rfl⟩
  · refine ⟨fun _ h => absurd (Option.some.inj h) hconf, fun _ => ?_⟩
    exact wp_post (syscallExec_keeps hconf a s hs) fun _ _ ht => ht.1

/-! ### A monitor is asked for slots that are not at the start of a page -/

/-- The only device is a system monitor. -/
def oneMonitor : Devices := ⟨[.sysmon], by decide, none⟩

/-- Every access succeeds, the first one reads `type` and the others `w`. -/
def plainUser (type w : ℕ) : User where
  fails _ := false
  serves _ t := t
  word n := if n = 0 then type else w
  context _ := {}
  mapping _ := {}
  table _ := ⟨0, 0, 0, {}, fun _ => {}, []⟩
  fuel := 0

/-- The boot processor takes the device. -/
def takeDevice : List Event := [⟨0, .syscall (.deviceAlloc 1 1 0)⟩]

/-- What `sys_device_conf` of the monitor leaves behind. -/
def confMonitor (w : ℕ) (t : Machine) : Option Ustate :=
  (kernSyscall oneMonitor (plainUser deviceConfSysmon w) 1 6 { a1 := 1, a2 := 4 }).next
    ⟨t, false, 0⟩

/-- The configuration is refused and the flag stays set; the next call that needs it panics. -/
theorem user_access_flag_left_set :
    ∃ t s', kernel.Reachable t ∧ confMonitor 1 t = some s' ∧ ¬ Idle s' ∧
      (kernSyscall oneMonitor (plainUser 0 0) 1 0 { a2 := 1 } s').1 = .stop .panic := by
  obtain ⟨t, ht, s', hs', hflag, hstop⟩ := reachable_of_bootRun 40 1 takeDevice (P := fun t =>
    ∃ s' ∈ confMonitor 1 t, s'.uaccessStart = true ∧
      (kernSyscall oneMonitor (plainUser 0 0) 1 0 { a2 := 1 } s').1 = .stop .panic)
    (by decide +kernel)
  refine ⟨t, s', ht, hs', fun h : s'.uaccessStart = false => ?_, hstop⟩
  exact absurd (h.symm.trans hflag) Bool.false_ne_true

/-- The only device is a disk, and its interrupt goes to a CPU. -/
def oneDisk : Devices := ⟨[.disk], by decide, none⟩

/-- What `sys_device_conf` of the disk leaves behind; its interrupt is to go to CPU `pid`. -/
def confDisk (pid : ℕ) (t : Machine) : Option Ustate :=
  (kernSyscall oneDisk (plainUser deviceConfIrq pid) 1 6 { a1 := 1, a2 := 4 }).next ⟨t, false, 0⟩

/-- CPU 1 of two takes the interrupt and the flag is cleared again; there is no CPU 2. -/
theorem user_access_left_iff_irq :
    ∃ t s', kernel.Reachable t ∧ Idle ⟨t, false, 0⟩ ∧ confDisk 1 t = some s' ∧ s'.accesses = 4 ∧
      Takes oneDisk (plainUser deviceConfIrq 1) 1 6 { a1 := 1, a2 := 4 } ⟨t, false, 0⟩ ∧
      ¬ Takes oneDisk (plainUser deviceConfIrq 2) 1 6 { a1 := 1, a2 := 4 } ⟨t, false, 0⟩ := by
  obtain ⟨t, ht, ⟨s', hs', hx, hflag⟩, s'', hs'', hset⟩ := reachable_of_bootRun 40 2 takeDevice
    (P := fun t => (∃ s' ∈ confDisk 1 t, s'.accesses = 4 ∧ s'.uaccessStart = false) ∧
      ∃ s' ∈ confDisk 2 t, s'.uaccessStart = true) (by decide +kernel)
  have hidle : Idle ⟨t, false, 0⟩ := rfl
  refine ⟨t, s', ht, hidle, hs', hx, ?_, fun h => ?_⟩
  · exact (user_access_left_iff oneDisk _ 1 6 _ hidle).mp fun _ h =>
      Option.some.inj (hs'.symm.trans h) ▸ hflag
  · exact absurd (((user_access_left_iff oneDisk _ 1 6 _ hidle).mpr h s'' hs'').symm.trans hset)
      Bool.false_ne_true

end Corey.Kern.Uaccess
