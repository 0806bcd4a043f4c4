import Corey.Kern.SyscallArgs

/-!
The ring of system calls between a processor and the system monitor (`lib/jsysmon.c`,
`kern/kern/sysmon.c`).

The client takes the slots in turn, fills one and sets a flag that hands it to the monitor. The
monitor polls the slots in the same order, and clears the flags of a slot one after the other. Both
sides read the flags, change a bit and write them back, which is safe because a slot has one
writer at a time: at each moment it is free, or being filled, or handed over, or being served, or
answered.
-/

open Function

namespace Corey.Sync.Sysmon

open Corey.Kern.SyscallArgs (Word Ref)
open Corey.Kern.Uaccess (allSyscalls)

/-! ### Slots -/

abbrev Flag := BitVec 32

def userInuse : Flag := 0x10
def kernCall : Flag := 0x20
def kernRet : Flag := 0x40

/-- The words of `struct jsm_arg`. -/
inductive Field
  | scNum | a1 | a2 | a3 | a4 | a5 | a6 | a7
  deriving DecidableEq

def Field.all : List Field := [.scNum, .a1, .a2, .a3, .a4, .a5, .a6, .a7]

abbrev Arg := Field → Word

/-- `struct jsm_slot` -/
structure Slot where
  arg : Arg
  ret : Word
  flag : Flag

inductive Call
  | deviceBuf (devref sgref : Ref) (offset : Word) (type : BitVec 32)
  | processorCurrent

/-- The stores of `jsm_call_device_buf` and `jsm_call_processor_current` to the arguments. -/
def Call.writes : Call → List (Field × Word)
  | .deviceBuf devref sgref offset type =>
    [(.scNum, allSyscalls.idxOf .deviceBuf), (.a1, devref.share), (.a2, devref.object),
      (.a3, sgref.share), (.a4, sgref.object), (.a5, offset), (.a6, type.setWidth 64)]
  | .processorCurrent => [(.scNum, allSyscalls.idxOf .processorCurrent)]

/-- A call as it has been handed over. -/
structure Sub where
  slot : ℕ
  call : Call
  ret : Bool

/-- What has happened: the calls handed over, those executed with their arguments and results, and
the results the client has read, with the number of the call. -/
structure Log where
  submitted : List Sub := []
  executed : List (Arg × Word) := []
  results : List (ℕ × Word) := []

structure Shared where
  slots : ℕ → Slot
  log : Log := {}

def Shared.put (m : Shared) (i : ℕ) (x : Slot) : Shared :=
  { m with slots := update m.slots i x }

def Shared.setFlag (m : Shared) (i : ℕ) (v : Flag) : Shared :=
  m.put i { m.slots i with flag := v }

/-! ### The client -/

/-- The next access of the client. -/
inductive ClientPc
  | idle
  /-- `jsm_next_slot`: the next slot is in use -/
  | spin (call : Call) (ret : Bool)
  /-- `jsm_next_slot`: the slot is taken -/
  | takeLoad (call : Call) (ret : Bool)
  | takeStore (call : Call) (ret : Bool) (v : Flag)
  /-- a result is asked for -/
  | retLoad (i : ℕ) (call : Call)
  | retStore (i : ℕ) (call : Call) (v : Flag)
  /-- `jsm_call_…`: the arguments -/
  | fill (i : ℕ) (call : Call) (ret : Bool) (ws : List (Field × Word))
  /-- `jsm_call_…`: the slot is handed over -/
  | callLoad (i : ℕ) (call : Call) (ret : Bool)
  | callStore (i : ℕ) (call : Call) (ret : Bool) (v : Flag)
  /-- the result of call `k` is not there -/
  | wait (i k : ℕ)
  | read (i k : ℕ)
  /-- `jsm_free_slot` -/
  | freeLoad (i k : ℕ)
  | freeStore (i k : ℕ) (v : Flag)

/-- `struct jsm`, and the slots whose results the program waits for. -/
structure Client where
  pc : ClientPc := .idle
  nextSlot : ℕ := 0
  held : List (ℕ × ℕ) := []

/-- What the program does next. -/
inductive Op
  | submit (call : Call) (ret : Bool)
  | collect (i k : ℕ)

/-- The next step of the client, with `n` slots: `jsm_next_slot`, a `jsm_call` function, and
`jsm_free_slot` behind the result. -/
def Client.act (n : ℕ) (op : Op) (m : Shared) (c : Client) : Option (Shared × Client) :=
  match c.pc with
  | .idle =>
    match op with
    | .submit call ret => some (m, { c with pc := .spin call ret })
    | .collect i k => if (i, k) ∈ c.held then some (m, { c with pc := .wait i k }) else none
  | .spin call ret =>
    if (m.slots c.nextSlot).flag &&& userInuse ≠ 0 then some (m, c)
    else some (m, { c with pc := .takeLoad call ret })
  | .takeLoad call ret =>
    some (m, { c with pc := .takeStore call ret (m.slots c.nextSlot).flag })
  | .takeStore call ret v =>
    some (m.setFlag c.nextSlot (v ||| userInuse),
      { c with
        pc := if ret then .retLoad c.nextSlot call else .fill c.nextSlot call false call.writes
        nextSlot := (c.nextSlot + 1) % n })
  | .retLoad i call => some (m, { c with pc := .retStore i call (m.slots i).flag })
  | .retStore i call v =>
    some (m.setFlag i (v ||| kernRet), { c with pc := .fill i call true call.writes })
  | .fill i call ret [] => some (m, { c with pc := .callLoad i call ret })
  | .fill i call ret ((f, w) :: ws) =>
    let x := m.slots i
    some (m.put i { x with arg := update x.arg f w }, { c with pc := .fill i call ret ws })
  | .callLoad i call ret => some (m, { c with pc := .callStore i call ret (m.slots i).flag })
  | .callStore i call ret v =>
    let log := m.log
    some ({ m.setFlag i (v ||| kernCall) with
        log := { log with submitted := log.submitted ++ [⟨i, call, ret⟩] } },
      { c with
        pc := .idle
        held := if ret then (i, log.submitted.length) :: c.held else c.held })
  | .wait i k =>
    if (m.slots i).flag &&& kernRet ≠ 0 then some (m, c)
    else some (m, { c with pc := .read i k })
  | .read i k =>
    let log := m.log
    some ({ m with log := { log with results := log.results ++ [(k, (m.slots i).ret)] } },
      { c with pc := .freeLoad i k })
  | .freeLoad i k => some (m, { c with pc := .freeStore i k (m.slots i).flag })
  | .freeStore i k v =>
    some (m.setFlag i (v &&& ~~~userInuse),
      { c with pc := .idle, held := c.held.filter (· ≠ (i, k)) })

/-! ### The monitor -/

/-- The next access of `sysmon_poll`. -/
inductive MonitorPc
  | poll
  /-- the call is taken over -/
  | callLoad
  | callStore (v : Flag)
  | retRead
  /-- `memcpy` of the arguments -/
  | copy (toReturn : Bool) (arg : Arg) (fs : List Field)
  /-- the slot is given back -/
  | useLoad (arg : Arg)
  | useStore (arg : Arg) (v : Flag)
  | exec (toReturn : Bool) (arg : Arg)
  /-- the result is given back -/
  | retStore (r : Word)
  | retLoad
  | flagStore (v : Flag)

/-- `struct sysmon_device` -/
structure Monitor where
  pc : MonitorPc := .poll
  nextSlot : ℕ := 0

/-- The end of a round of the loop. -/
def Monitor.advance (n : ℕ) (d : Monitor) : Monitor := ⟨.poll, (d.nextSlot + 1) % n⟩

/-- The next step of `sysmon_poll`. If it executes a call, the result is `r`. -/
def Monitor.act (n : ℕ) (r : Word) (m : Shared) (d : Monitor) : Shared × Monitor :=
  let x := m.slots d.nextSlot
  match d.pc with
  | .poll => (m, if x.flag &&& kernCall ≠ 0 then { d with pc := .callLoad } else d)
  | .callLoad => (m, { d with pc := .callStore x.flag })
  | .callStore v => (m.setFlag d.nextSlot (v &&& ~~~kernCall), { d with pc := .retRead })
  | .retRead => (m, { d with pc := .copy (x.flag &&& kernRet ≠ 0) (fun _ => 0) Field.all })
  | .copy toReturn arg [] =>
    (m, { d with pc := if toReturn then .exec true arg else .useLoad arg })
  | .copy toReturn arg (f :: fs) =>
    (m, { d with pc := .copy toReturn (update arg f (x.arg f)) fs })
  | .useLoad arg => (m, { d with pc := .useStore arg x.flag })
  | .useStore arg v =>
    (m.setFlag d.nextSlot (v &&& ~~~userInuse), { d with pc := .exec false arg })
  | .exec toReturn arg =>
    let log := m.log
    ({ m with log := { log with executed := log.executed ++ [(arg, r)] } },
      if toReturn then { d with pc := .retStore r } else d.advance n)
  | .retStore r => (m.put d.nextSlot { x with ret := r }, { d with pc := .retLoad })
  | .retLoad => (m, { d with pc := .flagStore x.flag })
  | .flagStore v => (m.setFlag d.nextSlot (v &&& ~~~kernRet), d.advance n)

/-! ### The ring -/

structure State where
  mem : Shared
  client : Client := {}
  monitor : Monitor := {}

inductive Act
  | client (op : Op)
  | monitor (r : Word)

/-- The client and the monitor with `n` slots, after `jsm_setup`. -/
def ring (n : ℕ) : System State Act where
  init s := (∀ i, (s.mem.slots i).flag = 0) ∧ s.mem.log = {} ∧ s.client = {} ∧ s.monitor = {}
  step
    | .client op, s => (s.client.act n op s.mem).map fun r => { s with mem := r.1, client := r.2 }
    | .monitor r, s =>
      let (m, d) := s.monitor.act n r s.mem
      some { s with mem := m, monitor := d }

/-! ### What the ring should do -/

/-- The arguments have what the call writes. -/
def Carries (arg : Arg) (call : Call) : Prop := ∀ w ∈ call.writes, arg w.1 = w.2

/-- The slot the client takes and fills. -/
def Client.takes (c : Client) : Option ℕ :=
  match c.pc with
  | .takeLoad _ _ | .takeStore _ _ _ => some c.nextSlot
  | .retLoad i _ | .retStore i _ _ | .fill i _ _ _ | .callLoad i _ _ | .callStore i _ _ _ => some i
  | _ => none

/-- The monitor is still going to read or write the slot. -/
def MonitorPc.uses : MonitorPc → Bool
  | .poll | .exec false _ => false
  | _ => true

/-- A call has been taken over and is not executed. -/
def MonitorPc.picked : MonitorPc → ℕ
  | .poll | .retStore _ | .retLoad | .flagStore _ => 0
  | _ => 1

/-- A slot that the monitor is working on, that has not been taken over, or whose result the
client has not fetched. -/
def Needed (s : State) (i : ℕ) : Prop :=
  (s.monitor.pc.uses = true ∧ s.monitor.nextSlot = i) ∨
    (∃ k sub, s.mem.log.executed.length + s.monitor.pc.picked ≤ k ∧
      s.mem.log.submitted[k]? = some sub ∧ sub.slot = i) ∨
    ∃ k, (i, k) ∈ s.client.held

structure Works (s : State) : Prop where
  once : s.mem.log.executed.length ≤ s.mem.log.submitted.length
  args : ∀ (k : ℕ) (x : Arg × Word), s.mem.log.executed[k]? = some x →
    ∃ sub : Sub, s.mem.log.submitted[k]? = some sub ∧ Carries x.1 sub.call
  results : ∀ k r, (k, r) ∈ s.mem.log.results → ∃ arg, s.mem.log.executed[k]? = some (arg, r)
  reuse : ∀ i, s.client.takes = some i → ¬ Needed s i

def polls : List Act → ℕ
  | [] => 0
  | .client _ :: l => polls l
  | .monitor _ :: l => polls l + 1

end Corey.Sync.Sysmon
