import Corey.Kern.Uaccess

/-!
The way of the arguments of a system call, from the stubs (`lib/joscall.x`) through the entry
(`lib/amd64/syscall_entry.S`) and the trap (`trap_dispatch`) to the handlers (`syscall_exec`).

An object reference is two words on this way, so that the arguments of a caller and those of a
handler are both lists of words here.
-/

namespace Corey.Kern.SyscallArgs

open Corey.Kern.Uaccess (Sysno allSyscalls)

abbrev Word := BitVec 64

/-- `struct sobj_ref` -/
structure Ref where
  share : Word
  object : Word

/-! ### The stubs -/

/-- A call of a stub with its arguments. Pointers are words; `proc_id_t` and the enumerations are
unsigned numbers of 32 bits, `mask` and `mode` are an `int`, `interior` is a `char`. -/
inductive Stub
  | consPuts (s size : Word)
  | consFlush
  | localityGet (ulm : Word)
  | deviceList (udl : Word)
  | deviceAlloc (sh did : Word) (pid : BitVec 32)
  | deviceStat (devref : Ref) (uds : Word)
  | deviceConf (devref : Ref) (udc : Word)
  | deviceBuf (devref sgref : Ref) (offset : Word) (type : BitVec 32)
  | objGetName (objref : Ref) (name : Word)
  | debug (op : BitVec 32) (a0 a1 a2 a3 a4 a5 : Word)
  | shareAlloc (shId : Word) (mask : BitVec 32) (name : Word) (pid : BitVec 32)
  | shareAddref (shId : Word) (o : Ref)
  | shareUnref (o : Ref)
  | segmentAlloc (shId numBytes name : Word) (pid : BitVec 32)
  | segmentCopy (sh : Word) (sgref : Ref) (name : Word) (mode pid : BitVec 32)
  | segmentGetNbytes (sgref : Ref)
  | segmentSetNbytes (sgref : Ref) (nbytes : Word)
  | processorAlloc (sh name : Word) (pid : BitVec 32)
  | processorCurrent
  | processorVector (psref : Ref) (uc : Word)
  | processorSetInterval (psref : Ref) (hz : Word)
  | processorHalt (psref : Ref)
  | processorSetDevice (psref : Ref) (i : Word) (devref : Ref)
  | selfFpEnable
  | selfDropShare (shId : Word)
  | selfGetAs (as : Word)
  | selfGetPid
  | atAlloc (sh : Word) (interior : BitVec 8) (name : Word) (pid : BitVec 32)
  | atGet (atref : Ref) (uat : Word)
  | atSet (atref : Ref) (uat : Word)
  | atSetSlot (atref : Ref) (uam : Word)
  | machineReinit (s size : Word)

/-- What the caller passes, in its order. -/
def Stub.args : Stub → List Word
  | .consPuts s size => [s, size]
  | .consFlush => []
  | .localityGet ulm => [ulm]
  | .deviceList udl => [udl]
  | .deviceAlloc sh did pid => [sh, did, pid.setWidth 64]
  | .deviceStat devref uds => [devref.share, devref.object, uds]
  | .deviceConf devref udc => [devref.share, devref.object, udc]
  | .deviceBuf devref sgref offset type =>
    [devref.share, devref.object, sgref.share, sgref.object, offset, type.setWidth 64]
  | .objGetName objref name => [objref.share, objref.object, name]
  | .debug op a0 a1 a2 a3 a4 a5 => [op.setWidth 64, a0, a1, a2, a3, a4, a5]
  | .shareAlloc shId mask name pid => [shId, mask.signExtend 64, name, pid.setWidth 64]
  | .shareAddref shId o => [shId, o.share, o.object]
  | .shareUnref o => [o.share, o.object]
  | .segmentAlloc shId numBytes name pid => [shId, numBytes, name, pid.setWidth 64]
  | .segmentCopy sh sgref name mode pid =>
    [sh, sgref.share, sgref.object, name, mode.signExtend 64, pid.setWidth 64]
  | .segmentGetNbytes sgref => [sgref.share, sgref.object]
  | .segmentSetNbytes sgref nbytes => [sgref.share, sgref.object, nbytes]
  | .processorAlloc sh name pid => [sh, name, pid.setWidth 64]
  | .processorCurrent => []
  | .processorVector psref uc => [psref.share, psref.object, uc]
  | .processorSetInterval psref hz => [psref.share, psref.object, hz]
  | .processorHalt psref => [psref.share, psref.object]
  | .processorSetDevice psref i devref =>
    [psref.share, psref.object, i, devref.share, devref.object]
  | .selfFpEnable => []
  | .selfDropShare shId => [shId]
  | .selfGetAs as => [as]
  | .selfGetPid => []
  | .atAlloc sh interior name pid => [sh, interior.signExtend 64, name, pid.setWidth 64]
  | .atGet atref uat => [atref.share, atref.object, uat]
  | .atSet atref uat => [atref.share, atref.object, uat]
  | .atSetSlot atref uam => [atref.share, atref.object, uam]
  | .machineReinit s size => [s, size]

/-- The seven arguments of `syscall` behind the number. -/
structure Slots where
  a1 : Word
  a2 : Word
  a3 : Word
  a4 : Word
  a5 : Word
  a6 : Word
  a7 : Word

/-- The body of a stub: the number and the slots it calls `syscall` with. -/
def Stub.syscall : Stub → Sysno × Slots
  | .consPuts s size => (.consPuts, ⟨s, size, 0, 0, 0, 0, 0⟩)
  | .consFlush => (.consFlush, ⟨0, 0, 0, 0, 0, 0, 0⟩)
  | .localityGet ulm => (.localityGet, ⟨ulm, 0, 0, 0, 0, 0, 0⟩)
  | .deviceList udl => (.deviceList, ⟨udl, 0, 0, 0, 0, 0, 0⟩)
  | .deviceAlloc sh did pid => (.deviceAlloc, ⟨sh, did, pid.setWidth 64, 0, 0, 0, 0⟩)
  | .deviceStat devref uds => (.deviceStat, ⟨devref.share, devref.object, uds, 0, 0, 0, 0⟩)
  | .deviceConf devref udc => (.deviceConf, ⟨devref.share, devref.object, udc, 0, 0, 0, 0⟩)
  | .deviceBuf devref sgref offset type =>
    (.deviceBuf, ⟨devref.share, devref.object, sgref.share, sgref.object, offset,
      type.setWidth 64, 0⟩)
  | .objGetName objref name => (.objGetName, ⟨objref.share, objref.object, name, 0, 0, 0, 0⟩)
  | .debug op a0 a1 a2 a3 a4 a5 => (.debug, ⟨op.setWidth 64, a0, a1, a2, a3, a4, a5⟩)
  | .shareAlloc shId mask name pid =>
    (.shareAlloc, ⟨shId, mask.signExtend 64, name, pid.setWidth 64, 0, 0, 0⟩)
  | .shareAddref shId o => (.shareAddref, ⟨shId, o.share, o.object, 0, 0, 0, 0⟩)
  | .shareUnref o => (.shareUnref, ⟨o.share, o.object, 0, 0, 0, 0, 0⟩)
  | .segmentAlloc shId numBytes name pid =>
    (.segmentAlloc, ⟨shId, numBytes, name, pid.setWidth 64, 0, 0, 0⟩)
  | .segmentCopy sh sgref name mode pid =>
    (.segmentCopy, ⟨sh, sgref.share, sgref.object, name, mode.signExtend 64, pid.setWidth 64, 0⟩)
  | .segmentGetNbytes sgref =>
    (.segmentGetNbytes, ⟨sgref.share, sgref.object, 0, 0, 0, 0, 0⟩)
  | .segmentSetNbytes sgref nbytes =>
    (.segmentSetNbytes, ⟨sgref.share, sgref.object, nbytes, 0, 0, 0, 0⟩)
  | .processorAlloc sh name pid => (.processorAlloc, ⟨sh, name, pid.setWidth 64, 0, 0, 0, 0⟩)
  | .processorCurrent => (.processorCurrent, ⟨0, 0, 0, 0, 0, 0, 0⟩)
  | .processorVector psref uc => (.processorVector, ⟨psref.share, psref.object, uc, 0, 0, 0, 0⟩)
  | .processorSetInterval psref hz =>
    (.processorSetInterval, ⟨psref.share, psref.object, hz, 0, 0, 0, 0⟩)
  | .processorHalt psref => (.processorHalt, ⟨psref.share, psref.object, 0, 0, 0, 0, 0⟩)
  | .processorSetDevice psref i devref =>
    (.processorSetDevice, ⟨psref.share, psref.object, i, devref.share, devref.object, 0, 0⟩)
  | .selfFpEnable => (.selfFpEnable, ⟨0, 0, 0, 0, 0, 0, 0⟩)
  | .selfDropShare shId => (.selfDropShare, ⟨shId, 0, 0, 0, 0, 0, 0⟩)
  | .selfGetAs as => (.selfGetAs, ⟨as, 0, 0, 0, 0, 0, 0⟩)
  | .selfGetPid => (.selfGetPid, ⟨0, 0, 0, 0, 0, 0, 0⟩)
  | .atAlloc sh interior name pid =>
    (.atAlloc, ⟨sh, interior.signExtend 64, name, pid.setWidth 64, 0, 0, 0⟩)
  | .atGet atref uat => (.atGet, ⟨atref.share, atref.object, uat, 0, 0, 0, 0⟩)
  | .atSet atref uat => (.atSet, ⟨atref.share, atref.object, uat, 0, 0, 0, 0⟩)
  | .atSetSlot atref uam => (.atSetSlot, ⟨atref.share, atref.object, uam, 0, 0, 0, 0⟩)
  | .machineReinit s size => (.machineReinit, ⟨s, size, 0, 0, 0, 0, 0⟩)

/-! ### The trap -/

/-- The registers that the entry and the trap use, and the stack from its top. -/
structure Cpu where
  rdi : Word
  rsi : Word
  rdx : Word
  rcx : Word
  r8 : Word
  r9 : Word
  r10 : Word
  r11 : Word
  stack : List Word

/-- A C function is called with six arguments in registers and the others on the stack, above
the return address. What is in the other registers does not matter. -/
def callSyscall (ret r10 r11 : Word) (num : ℕ) (a : Slots) : Cpu where
  rdi := BitVec.ofNat 64 num
  rsi := a.a1
  rdx := a.a2
  rcx := a.a3
  r8 := a.a4
  r9 := a.a5
  r10 := r10
  r11 := r11
  stack := [ret, a.a6, a.a7]

/-- `movq 8(%rsp), %r10; movq 16(%rsp), %r11; int $T_SYSCALL` -/
def syscallEntry (c : Cpu) : Cpu :=
  { c with r10 := c.stack.getD 1 0, r11 := c.stack.getD 2 0 }

/-- The case `T_SYSCALL` of `trap_dispatch`: what `kern_syscall` is called with. -/
def trapDispatch (tf : Cpu) : Word × Slots :=
  (tf.rdi, ⟨tf.rsi, tf.rdx, tf.rcx, tf.r8, tf.r9, tf.r10, tf.r11⟩)

/-! ### The handlers -/

/-- The arguments each handler is called with, behind `src`. The parameter `type` of
`sys_device_buf` has 32 bits. Two numbers have no handler. -/
def handlerArgs (a : Slots) : Sysno → Option (List Word)
  | .consPuts => some [a.a1, a.a2]
  | .consFlush => some []
  | .localityGet => some [a.a1]
  | .deviceList => some [a.a1]
  | .deviceAlloc => some [a.a1, a.a2, a.a3]
  | .deviceStat => some [a.a1, a.a2, a.a3]
  | .deviceConf => some [a.a1, a.a2, a.a3]
  | .deviceBuf => some [a.a1, a.a2, a.a3, a.a4, a.a5, (a.a6.setWidth 32).setWidth 64]
  | .debug => some [a.a1, a.a2, a.a3, a.a4, a.a5, a.a5, a.a7]
  | .objGetName => some [a.a1, a.a2, a.a3]
  | .shareAlloc => some [a.a1, a.a2, a.a3, a.a4]
  | .shareAddref => some [a.a1, a.a2, a.a3]
  | .shareUnref => some [a.a1, a.a2]
  | .segmentAlloc => some [a.a1, a.a2, a.a3, a.a4]
  | .segmentCopy => some [a.a1, a.a2, a.a3, a.a4, a.a5, a.a6]
  | .segmentGetNbytes => some [a.a1, a.a2]
  | .segmentSetNbytes => some [a.a1, a.a2, a.a3]
  | .processorAlloc => some [a.a1, a.a2, a.a3]
  | .processorCurrent => some []
  | .processorVector => some [a.a1, a.a2, a.a3]
  | .processorSetInterval => some [a.a1, a.a2, a.a3]
  | .processorHalt => some [a.a1, a.a2]
  | .processorSetDevice => some [a.a1, a.a2, a.a3, a.a4, a.a5]
  | .selfFpEnable => some [a.a1]
  | .selfDropShare => some [a.a1]
  | .selfGetAs => some [a.a1]
  | .selfGetPid => some []
  | .atAlloc => some [a.a1, a.a2, a.a3, a.a4]
  | .atGet => some [a.a1, a.a2, a.a3]
  | .atSet => some [a.a1, a.a2, a.a3]
  | .atSetSlot => some [a.a1, a.a2, a.a3]
  | .machineReinit => some [a.a1, a.a2]
  | .processorAddref | .processorUnref => none

/-- The handler that `syscall_exec` calls, and with what. -/
def syscallExec (num : Word) (a : Slots) : Option (Sysno × List Word) := do
  let no ← allSyscalls[num.toNat]?
  let args ← handlerArgs a no
  some (no, args)

/-- A system call from the stub to the handler. The return address and what was in the two
registers before are arbitrary. -/
def Stub.call (ret r10 r11 : Word) (c : Stub) : Option (Sysno × List Word) :=
  let tf := trapDispatch
    (syscallEntry (callSyscall ret r10 r11 (allSyscalls.idxOf c.syscall.1) c.syscall.2))
  syscallExec tf.1 tf.2

variable {ret r10 r11 : Word}

lemma allSyscalls_idxOf (no : Sysno) :
    allSyscalls[(BitVec.ofNat 64 (allSyscalls.idxOf no)).toNat]? = some no := by
  cases no <;> rfl

lemma Stub.call_eq (c : Stub) :
    c.call ret r10 r11 = (handlerArgs c.syscall.2 c.syscall.1).map (c.syscall.1, ·) := by
  rw [Stub.call]
  simp only [syscallEntry, callSyscall, trapDispatch, syscallExec, allSyscalls_idxOf,
    List.getD_cons_succ, List.getD_cons_zero, Option.bind_eq_bind, Option.bind_some]
  cases handlerArgs c.syscall.2 c.syscall.1 <;> rfl

/-- `sys_debug` gets its fifth argument twice, in place of the sixth, and `sys_self_fp_enable` a
word that its caller did not pass. -/
def Stub.Delivered : Stub → Prop
  | .debug _ _ _ _ a3 a4 _ => a3 = a4
  | .selfFpEnable => False
  | _ => True

/-- **What the handlers are called with.** A system call reaches the handler of its own name with
exactly the arguments of its caller, in their order, unless it is one of two that the table of the
handlers gets wrong. -/
theorem syscall_delivered_iff (ret r10 r11 : Word) (c : Stub) :
    c.call ret r10 r11 = some (c.syscall.1, c.args) ↔ c.Delivered := by
  rw [Stub.call_eq]
  cases c with
  | debug op a0 a1 a2 a3 a4 a5 =>
    simp only [Stub.syscall, handlerArgs, Stub.args, Stub.Delivered, Option.map_some,
      Option.some.injEq, Prod.mk.injEq, List.cons.injEq, true_and, and_true]
  | selfFpEnable =>
    simp only [Stub.syscall, handlerArgs, Stub.args, Stub.Delivered, Option.map_some,
      Option.some.injEq, Prod.mk.injEq, reduceCtorEq, and_false]
  | deviceBuf devref sgref offset type =>
    -- the type of a buffer has 32 bits on both sides
    have htype : (type.setWidth 64).setWidth 32 = type := by
      rw [BitVec.setWidth_setWidth (by decide), BitVec.setWidth_eq]
    simp only [Stub.syscall, handlerArgs, Stub.args, Stub.Delivered, Option.map_some, htype]
  | _ => exact iff_of_true rfl trivial

/-- The sixth argument of `sys_debug` is lost. -/
theorem debug_loses_argument :
    (Stub.debug 0 1 2 3 4 5 6).call 0 0 0 = some (.debug, [0, 1, 2, 3, 4, 4, 6]) ∧
      (Stub.debug 0 1 2 3 4 5 6).args = [0, 1, 2, 3, 4, 5, 6] := by
  decide +kernel

end Corey.Kern.SyscallArgs
