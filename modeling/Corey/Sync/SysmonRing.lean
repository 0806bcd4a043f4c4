import Corey.Sync.Sysmon

/-!
Which slots the system monitor touches (`kern/kern/sysmon.c`).

A monitor can be configured again at any time between its polls, and also by a system call that it
executes itself in the middle of a poll. The index of the next slot stays across configurations.
Nothing compares it with the new number of slots, which may also be zero.
-/

namespace Corey.Sync.SysmonRing

open Corey.Mem Corey.Kern
open Corey.Sync.Sysmon (Flag kernCall kernRet)

/-- A slot of a page. -/
structure Place where
  page : ℕ
  slot : ℕ
  deriving DecidableEq

/-- Where `sysmon_poll` is: it has returned, or is about to read the flags of a slot, or executes
the system call of a slot, whose result is wanted or not. -/
inductive Pc
  | idle
  | test (slot : Place)
  | exec (slot : Place) (toReturn : Bool)
  deriving DecidableEq

/-- `struct sysmon_device` -/
structure Monitor where
  sharedSlots : Option ℕ := none
  numSlots : ℕ := 0
  nextSlot : ℕ := 0
  pc : Pc := .idle
  deriving DecidableEq

/-- The arguments of `sysmon_conf`, with what `processor_co_obj` and `segment_get_page` answer for
the segment and the page. -/
structure Conf where
  offset : ℕ
  numSlots : ℕ
  page : Except Errno ℕ

def sysmonConf (c : Conf) (sm : Monitor) : Except Errno Monitor :=
  if c.offset % pgsize ≠ 0 then .error .inval
  else if pgsize < c.numSlots * jsmSlotSize then .error .inval
  else c.page.map fun kva => { sm with numSlots := c.numSlots, sharedSlots := some kva }

inductive Act
  | conf (c : Conf)
  /-- `sysmon_poll` is called -/
  | poll
  /-- the flags read from the slot -/
  | read (flag : Flag)
  /-- the system call returns -/
  | executed

/-- One turn of the loop of `sysmon_poll` is a step that reads the flags and takes over the call,
the steps of the system call, and a step that answers and goes on to the next slot. A division by
zero is no step. -/
def step : Act → Monitor → Option Monitor
  | .conf c, sm =>
    match sm.pc, sysmonConf c sm with
    | .test _, _ => none
    | _, .ok sm' => some sm'
    | _, .error _ => some sm
  | .poll, sm =>
    match sm.pc, sm.sharedSlots with
    | .idle, some page => some { sm with pc := .test ⟨page, sm.nextSlot⟩ }
    | .idle, none => some sm
    | _, _ => none
  | .read flag, sm =>
    match sm.pc with
    | .test slot =>
      if flag &&& kernCall = 0 then some { sm with pc := .idle }
      else some { sm with pc := .exec slot (flag &&& kernRet ≠ 0) }
    | _ => none
  | .executed, sm =>
    match sm.pc, sm.sharedSlots with
    | .exec slot _, some page =>
      if sm.numSlots = 0 then none
      else
        let nextSlot := (slot.slot + 1) % sm.numSlots
        some { sm with nextSlot := nextSlot, pc := .test ⟨page, nextSlot⟩ }
    | _, _ => none

def monitor : System Monitor Act where
  init sm := sm = {}
  step := step

/-- The slot the next step reads or writes. -/
def Monitor.touches (sm : Monitor) : Option Place :=
  match sm.pc with
  | .idle => none
  | .test slot => some slot
  | .exec slot toReturn => if toReturn then some slot else none

/-- The slot lies in the page and among the slots that are configured. -/
def Monitor.Holds (sm : Monitor) (p : Place) : Prop :=
  sm.sharedSlots = some p.page ∧ p.slot < sm.numSlots ∧ (p.slot + 1) * jsmSlotSize ≤ pgsize

/-- The next step stays inside the ring and does not divide by zero. -/
structure Monitor.Safe (sm : Monitor) : Prop where
  inside : ∀ p, sm.touches = some p → sm.Holds p
  divides : ∀ p r, sm.pc = .exec p r → sm.numSlots ≠ 0

/-- `sysmon_conf` returns no error. -/
def Conf.Accepted (c : Conf) : Prop :=
  c.offset % pgsize = 0 ∧ c.numSlots * jsmSlotSize ≤ pgsize ∧ c.page.toOption.isSome

/-- Between two polls the new ring has the next slot. In the middle of a poll it has slots at all,
and the slot whose answer is wanted. -/
def Fits (sm : Monitor) : Act → Prop
  | .conf c => c.Accepted → 0 < c.numSlots ∧
      match sm.pc with
      | .exec slot true => c.page.toOption = some slot.page ∧ slot.slot < c.numSlots
      | .exec _ false => True
      | _ => sm.nextSlot < c.numSlots
  | _ => True

lemma sysmonConf_ok {c : Conf} {sm sm' : Monitor} (h : sysmonConf c sm = .ok sm') :
    c.Accepted ∧ ∃ kva, c.page = .ok kva ∧
      sm' = { sm with numSlots := c.numSlots, sharedSlots := some kva } := by
  unfold sysmonConf at h
  split_ifs at h with h1 h2
  cases hp : c.page with
  | error e => simp [hp, Except.map] at h
  | ok kva =>
    simp only [hp, Except.map, Except.ok.injEq] at h
    exact ⟨⟨by omega, by omega, by simp [hp, Except.toOption]⟩, kva, rfl, h.symm⟩

/-- A configured ring has slots, all in its page, and the monitor is at one of them. -/
structure Monitor.Inv (sm : Monitor) : Prop where
  size : sm.sharedSlots.isSome → 0 < sm.numSlots ∧ sm.numSlots * jsmSlotSize ≤ pgsize
  idle : sm.pc = .idle → sm.sharedSlots.isSome → sm.nextSlot < sm.numSlots
  test : ∀ p, sm.pc = .test p → sm.sharedSlots = some p.page ∧ p.slot < sm.numSlots ∧
    p.slot = sm.nextSlot
  exec : ∀ p r, sm.pc = .exec p r → sm.sharedSlots.isSome ∧
    (r = true → sm.sharedSlots = some p.page ∧ p.slot < sm.numSlots)

lemma Monitor.Inv.safe {sm : Monitor} (h : sm.Inv) : sm.Safe := by
  have inside : ∀ p : Place, sm.sharedSlots = some p.page → p.slot < sm.numSlots → sm.Holds p := by
    intro p hp hlt
    have hle := (h.size (by simp [hp])).2
    exact ⟨hp, hlt, (Nat.mul_le_mul_right _ hlt).trans hle⟩
  refine ⟨fun p hp => ?_, fun p r hpc => (h.size (h.exec p r hpc).1).1.ne'⟩
  unfold Monitor.touches at hp
  cases hpc : sm.pc with
  | idle => simp [hpc] at hp
  | test q =>
    simp only [hpc, Option.some.injEq] at hp
    subst hp
    exact inside q (h.test q hpc).1 (h.test q hpc).2.1
  | exec q r =>
    cases r with
    | false => simp [hpc] at hp
    | true =>
      simp only [hpc, if_true, Option.some.injEq] at hp
      subst hp
      obtain ⟨hpage, hlt⟩ := (h.exec q true hpc).2 rfl
      exact inside q hpage hlt

lemma sysmonConf_inv {c : Conf} {sm sm' : Monitor} (hfits : Fits sm (.conf c))
    (hpc : ∀ p, sm.pc ≠ .test p) (hs : sysmonConf c sm = .ok sm') : sm'.Inv := by
  obtain ⟨hacc, kva, hkva, rfl⟩ := sysmonConf_ok hs
  obtain ⟨hpos, hslot⟩ := hfits hacc
  refine ⟨fun _ => ⟨hpos, hacc.2.1⟩, fun hidle _ => ?_, fun p ht => absurd ht (hpc p),
    fun p r he => ⟨rfl, ?_⟩⟩
  · simpa [show sm.pc = .idle from hidle] using hslot
  · rintro rfl
    simpa [show sm.pc = .exec p true from he, hkva, Except.toOption] using hslot

lemma step_inv {a : Act} {sm sm' : Monitor} (h : sm.Inv) (hfits : Fits sm a)
    (hs : step a sm = some sm') : sm'.Inv := by
  cases a with
  | conf c =>
    simp only [step] at hs
    split at hs
    · cases hs
    · rename_i hok hpc
      cases hs
      exact sysmonConf_inv hfits hpc hok
    · cases hs
      exact h
  | poll =>
    simp only [step] at hs
    split at hs
    · rename_i page hpc hshared
      cases hs
      refine ⟨h.size, nofun, fun p hp => ?_, nofun⟩
      cases hp
      exact ⟨hshared, h.idle hpc (by simp [hshared]), rfl⟩
    · cases hs
      exact h
    · cases hs
  | read flag =>
    simp only [step] at hs
    split at hs
    · rename_i slot hpc
      obtain ⟨hshared, hlt, heq⟩ := h.test slot hpc
      split_ifs at hs
      · -- the slot has no call: the poll ends where the next one starts
        cases hs
        exact ⟨h.size, fun _ _ => heq ▸ hlt, nofun, nofun⟩
      · cases hs
        refine ⟨h.size, nofun, nofun, fun p r hp => ?_⟩
        cases hp
        exact ⟨by simp [hshared], fun _ => ⟨hshared, hlt⟩⟩
    · cases hs
  | executed =>
    simp only [step] at hs
    split at hs
    · rename_i slot r page hpc hshared
      split_ifs at hs with h0
      cases hs
      refine ⟨h.size, nofun, fun p hp => ?_, nofun⟩
      cases hp
      exact ⟨hshared, Nat.mod_lt _ (Nat.pos_of_ne_zero h0), rfl⟩
    · cases hs

/-- **The monitor stays inside the ring.** In every run in which each new configuration has the
slot the monitor is at, each slot that a poll reads or writes is one of the configured slots and
lies in the configured page, and no poll divides by zero. -/
theorem sysmonPoll_inside {sm : Monitor} (h : monitor.Reach Fits sm) : sm.Safe :=
  (h.invariant (fun _ h0 => h0 ▸ ⟨nofun, nofun, nofun, nofun⟩)
    fun _ _ _ hinv hfits hs => step_inv hinv hfits hs).safe

/-- **The hypothesis can be met**: a poll serves one slot of a ring of 51, the ring becomes one of
50 slots in another page, and the next poll goes on there. -/
theorem sysmonPoll_inside_two_rings :
    ∃ sm : Monitor, monitor.Reach Fits sm ∧ sm.touches = some ⟨8, 1⟩ ∧ sm.Safe := by
  have hr : monitor.Reach Fits ⟨some 8, 50, 1, .test ⟨8, 1⟩⟩ := by
    refine .next (a := .poll) (.next (a := .conf ⟨4096, 50, .ok 8⟩) (.next (a := .read 0)
      (.next (a := .executed) (.next (a := .read kernCall) (.next (a := .poll)
        (.next (a := .conf ⟨0, 51, .ok 7⟩) (.start rfl) ?_ rfl) ?_ rfl) ?_ rfl) ?_ rfl) ?_ rfl)
          ?_ rfl) ?_ rfl
    all_goals first | exact trivial | exact fun _ => by decide
  exact ⟨_, hr, rfl, sysmonPoll_inside hr⟩

/-- **A ring can shrink below the slot the monitor is at, or to nothing**: then the monitor reads a
slot behind the ring, or divides by zero. -/
theorem sysmonPoll_leaves_ring :
    (∃ sm : Monitor, monitor.Reachable sm ∧ sm.touches = some ⟨7, 1⟩ ∧ sm.numSlots = 1) ∧
    ∃ sm : Monitor, monitor.Reachable sm ∧ sm.pc = .exec ⟨7, 0⟩ false ∧ sm.numSlots = 0 := by
  have start : monitor.Reachable {} := .start rfl
  have run (l : List Act) (sm : Monitor) (h : monitor.run (fun _ _ => true) l {} = some sm) :
      monitor.Reachable sm := start.run (fun _ _ _ => trivial) h
  exact ⟨⟨_, run [.conf ⟨0, 51, .ok 7⟩, .poll, .read kernCall, .executed, .read 0,
      .conf ⟨0, 1, .ok 7⟩, .poll] ⟨some 7, 1, 1, .test ⟨7, 1⟩⟩ (by decide), rfl, rfl⟩,
    ⟨_, run [.conf ⟨0, 0, .ok 7⟩, .poll, .read kernCall] ⟨some 7, 0, 0, .exec ⟨7, 0⟩ false⟩
      (by decide), rfl, rfl⟩⟩

end Corey.Sync.SysmonRing
