import Corey.Kern.Processor
import Corey.Lib.Waits

/-!
CPUs that wait for each other (`kern/processor.c`, `kern/kobj.c`, `arch/amd64/trap.c`).

A CPU that collects a running processor asks the processor's CPU to halt it and waits in the
kernel until it has done so. The other CPU takes the interrupt only in user code. It does so
unless it polls devices for a monitor, which it does for ever, or waits itself for a CPU that
waits for it.
-/

namespace Corey.Kern

open Function Corey.Comp Corey.Mem Corey.Waits Relation Machine

/-! ### The CPUs -/

/-- Where a CPU is. It takes interrupts in user code only. -/
inductive Ctl (P : Type)
  /-- in user code -/
  | user
  /-- in `processor_run`, which waits for a processor to run -/
  | idle
  /-- in the loop of `processor_monitor_run`, about to poll the devices -/
  | poll
  /-- at the head of the loop of `kobject_gc_scan`, which a monitor's loop has called or not -/
  | scan (mon : Bool)
  /-- in that scan at the end of `processor_gc_cb`, waiting for a processor to stop -/
  | wait (mon : Bool) (p : P)

/-- The calls that are made for processors, from user code or by a monitor. -/
inductive Call (P : Type)
  | none
  | vector (p : P) (mon : Bool)
  | unref (p : P)
  | halt (p : P)

/-- CPUs and processors. Which processors there are does not change; one that has been
collected has no references and is not found by a call any more. -/
structure Cpus (C P : Type) where
  psPid : P → C
  psRunning : P → Bool
  psHalt : P → Bool
  psMode : P → PsMode
  koRef : P → ℕ
  processors : C → Option P
  koGcList : C → List P
  /-- a `T_HALT` has been sent to the CPU and not been taken yet -/
  halts : C → Bool
  ctl : C → Ctl P

namespace Cpus

variable {C P : Type} [DecidableEq C] [DecidableEq P]

def setCtl (c : C) (x : Ctl P) (s : Cpus C P) : Cpus C P :=
  { s with ctl := update s.ctl c x }

/-- The end of `processor_halt` on the CPU the processor runs on. -/
def haltHere (p : P) (s : Cpus C P) : Cpus C P :=
  { s with
    processors := update s.processors (s.psPid p) none
    psRunning := update s.psRunning p false }

/-- `processor_halt` on another CPU. -/
def askHalt (p : P) (s : Cpus C P) : Cpus C P :=
  { s with
    psHalt := update s.psHalt p true
    halts := update s.halts (s.psPid p) true }

def processorHalt (c : C) (p : P) (s : Cpus C P) : Cpus C P :=
  if s.processors c = some p then s.haltHere p else s.askHalt p

def processorVector (p : P) (mode : PsMode) (s : Cpus C P) : Cpus C P :=
  if s.psRunning p then s
  else { s with
    psRunning := update s.psRunning p true
    psHalt := update s.psHalt p false
    psMode := update s.psMode p mode
    processors := update s.processors (s.psPid p) (some p) }

/-- The last reference takes the processor to the list of the CPU. -/
def kobjectDecref (c : C) (p : P) (s : Cpus C P) : Cpus C P :=
  { s with
    koRef := update s.koRef p (s.koRef p - 1)
    koGcList := if s.koRef p = 1 then update s.koGcList c (p :: s.koGcList c)
      else s.koGcList }

/-- Only an object that a share refers to is found by a call. -/
def kernSyscall (c : C) (s : Cpus C P) : Call P → Cpus C P
  | .none => s
  | .vector p mon =>
    if s.koRef p = 0 then s else s.processorVector p (if mon then .mon else .reg)
  | .unref p => if s.koRef p = 0 then s else s.kobjectDecref c p
  | .halt p => if s.koRef p = 0 then s else s.processorHalt c p

/-- `trap_dispatch` for `T_HALT`. -/
def trapHalt (c : C) (s : Cpus C P) : Cpus C P :=
  let s' := { s with halts := update s.halts c false }
  match s.processors c with
  | none => s'
  | some p => if s.psHalt p then s'.haltHere p else s'

/-- One round of the loop of `kobject_gc_scan`. A processor that runs on another CPU is asked to
halt, and the scan waits. -/
def gcObject (c : C) (mon : Bool) (p : P) (s : Cpus C P) : Cpus C P :=
  if s.koRef p ≠ 0 ∨ s.psRunning p = false then s
  else if s.processors c = some p then s.haltHere p
  else (s.askHalt p).setCtl c (.wait mon p)

def kobjectGcScan (c : C) (mon : Bool) (s : Cpus C P) : Cpus C P :=
  match s.koGcList c with
  | [] => s.setCtl c (if mon then .poll else .idle)
  | p :: l => { s with koGcList := update s.koGcList c l }.gcObject c mon p

/-- One step of a CPU, with the call it makes if it can make one. A pending interrupt is taken
before the next instruction of user code. A trap ends in `processor_run`, which begins with a
scan. -/
def step (c : C) (call : Call P) (s : Cpus C P) : Cpus C P :=
  match s.ctl c with
  | .user =>
    if s.halts c then (s.trapHalt c).setCtl c (.scan false)
    else
      match call with
      | .none => s
      | _ => (s.kernSyscall c call).setCtl c (.scan false)
  | .idle =>
    match s.processors c with
    | none => s
    | some p => s.setCtl c (if s.psMode p = .mon then .poll else .user)
  | .poll => (s.kernSyscall c call).setCtl c (.scan true)
  | .scan mon => s.kobjectGcScan c mon
  | .wait mon p => if s.psRunning p then s else s.setCtl c (.scan mon)

/-- A run: who takes the next step, and the call that is made in it. -/
def run (s : Cpus C P) (sch : ℕ → C × Call P) : ℕ → Cpus C P
  | 0 => s
  | k + 1 => (run s sch k).step (sch k).1 (sch k).2

end Cpus

/-! ### The functions of the kernel -/

/-- What the state of the kernel says of processors, for CPUs that are at `ctl`. -/
def Machine.cpus (halts : ℕ → Bool) (ctl : ℕ → Ctl Kobj) (s : Machine) : Cpus ℕ Kobj where
  psPid p := (s.obj p).ps.psPid
  psRunning p := (s.obj p).ps.psRunning
  psHalt p := (s.obj p).ps.psHalt
  psMode p := (s.obj p).ps.psMode
  koRef p := (s.obj p).koRef
  processors := s.processors
  koGcList := s.koGcList
  halts := halts
  ctl := ctl

section

variable {s : Machine} {p : Kobj} {halts : ℕ → Bool} {ctl : ℕ → Ctl Kobj} {mon : Bool}
  {f : Kobject → Kobject} {l : List Kobj}

lemma cpus_modObj (href : (f (s.obj p)).koRef = (s.obj p).koRef) :
    (s.modObj p f).cpus halts ctl = { s.cpus halts ctl with
      psPid := update (s.cpus halts ctl).psPid p (f (s.obj p)).ps.psPid
      psRunning := update (s.cpus halts ctl).psRunning p (f (s.obj p)).ps.psRunning
      psHalt := update (s.cpus halts ctl).psHalt p (f (s.obj p)).ps.psHalt
      psMode := update (s.cpus halts ctl).psMode p (f (s.obj p)).ps.psMode } := by
  simp only [cpus, Cpus.mk.injEq, and_true]
  refine ⟨?_, ?_, ?_, ?_, ?_, rfl, rfl⟩ <;> funext q <;> by_cases hq : q = p <;>
    simp [hq, modObj_of_ne, href]

lemma cpus_modObj_same (href : (f (s.obj p)).koRef = (s.obj p).koRef)
    {m : Sharemap} (hps : (f (s.obj p)).ps = { (s.obj p).ps with psSharemap := m }) :
    (s.modObj p f).cpus halts ctl = s.cpus halts ctl := by
  rw [cpus_modObj href, hps]
  simp only [cpus, Cpus.mk.injEq, and_true, update_eq_self_iff]

lemma processorHalt_defers (hlive : (s.obj p).live = true) (htype : (s.obj p).koType = .processor)
    (hother : s.processors s.mem.cpu ≠ some p) :
    processorHalt p s =
      (.ok false, s.modObj p fun o => { o with ps := { o.ps with psHalt := true } }) := by
  refine eq_of_wp ?_
  simp only [processorHalt, wp_rules, wp_derefAs, wp_processorSched, wp_modProcessor, hlive, htype]
  exact ⟨fun _ _ => ⟨fun _ => ⟨trivial, trivial⟩, fun h => absurd hother h⟩,
    fun _ h => absurd rfl h,
    (by simp)⟩

lemma cpus_askHalt :
    (s.modObj p fun o => { o with ps := { o.ps with psHalt := true } }).cpus
      (update halts (s.obj p).ps.psPid true) ctl = (s.cpus halts ctl).askHalt p := by
  refine (cpus_modObj (f := fun o => { o with ps := { o.ps with psHalt := true } }) rfl).trans ?_
  simp only [Cpus.askHalt, cpus, Cpus.mk.injEq, and_true, true_and]
  exact ⟨update_eq_self .., update_eq_self .., update_eq_self ..⟩

/-- **A scan of the kernel stops to wait** where the scan of a CPU does. -/
theorem kobjectGcScan_waits (hl : s.koGcList s.mem.cpu = p :: l)
    (hlive : (s.obj p).live = true) (htype : (s.obj p).koType = .processor)
    (href : (s.obj p).koRef = 0) (hrun : (s.obj p).ps.psRunning = true)
    (hother : s.processors s.mem.cpu ≠ some p) : ∃ s', kobjectGcScan s = (.stop .spin, s') ∧
      s'.cpus (update halts (s.obj p).ps.psPid true) (update ctl s.mem.cpu (.wait mon p)) =
        (s.cpus halts ctl).kobjectGcScan s.mem.cpu mon := by
  let t : Machine := { s with koGcList := update s.koGcList s.mem.cpu l }
  refine ⟨t.modObj p fun o => { o with ps := { o.ps with psHalt := true } }, eq_stop_of_wp ?_, ?_⟩
  · simp only [kobjectGcScan, wp_rules, wp_archCpu, hl, List.head?_cons, gcObject, wp_deref,
      List.tail_cons, hlive, href]
    refine ⟨fun _ => ⟨fun _ => ?_, fun h => absurd trivial h⟩, by simp⟩
    simp only [gcCb, wp_bind, wp_deref]
    refine ⟨fun _ => ?_, fun h => absurd (hlive.symm.trans h) (by simp)⟩
    rw [show (t.obj p).koType = .processor from htype]
    simp only [processorGcCb, wp_rules, wp_derefAs]
    refine ⟨fun _ _ => ⟨fun _ => ?_, fun h => absurd hrun h⟩, fun _ h => absurd htype h,
      fun h => absurd (hlive.symm.trans h) (by simp)⟩
    exact wp_of_ok (processorHalt_defers hlive htype hother)
      ⟨fun _ => ⟨rfl, rfl⟩, fun h => absurd rfl h⟩
  · have hscan : (s.cpus halts ctl).kobjectGcScan s.mem.cpu mon =
        ((t.cpus halts ctl).askHalt p).setCtl s.mem.cpu (.wait mon p) := by
      simp only [Cpus.kobjectGcScan, show (s.cpus halts ctl).koGcList s.mem.cpu = p :: l from hl]
      have hneeds : ¬ ((s.obj p).koRef ≠ 0 ∨ (s.obj p).ps.psRunning = false) := by simp [href, hrun]
      exact (if_neg hneeds).trans (if_neg hother)
    rw [hscan, ← cpus_askHalt]
    rfl

/-- What is not running, or still referred to, the scan passes or collects. -/
theorem kobjectGcScan_goes_on (hl : s.koGcList s.mem.cpu = p :: l)
    (htype : (s.obj p).koType = .processor)
    (hskip : (s.obj p).koRef ≠ 0 ∨ (s.obj p).ps.psRunning = false) :
    wp kobjectGcScan (fun _ s' => s'.cpus halts ctl =
      (s.cpus halts ctl).kobjectGcScan s.mem.cpu mon) Exits.any s := by
  have hscan : (s.cpus halts ctl).kobjectGcScan s.mem.cpu mon =
      cpus halts ctl { s with koGcList := update s.koGcList s.mem.cpu l } := by
    simp only [Cpus.kobjectGcScan, show (s.cpus halts ctl).koGcList s.mem.cpu = p :: l from hl]
    exact if_pos hskip
  simp only [kobjectGcScan, wp_rules, wp_archCpu, hl, List.head?_cons, gcObject, wp_deref,
    List.tail_cons, hscan]
  refine ⟨fun hlive => ⟨fun href => ?_, fun _ => trivial⟩, fun _ => trivial⟩
  simp only [gcCb, wp_bind, wp_deref]
  refine ⟨fun _ => ?_, fun _ => trivial⟩
  rw [show (obj { s with koGcList := update s.koGcList s.mem.cpu l } p).koType =
    .processor from htype]
  have hstopped : (s.obj p).ps.psRunning = false := hskip.resolve_left fun h => h href
  simp only [processorGcCb, wp_rules, wp_derefAs_any]
  refine fun _ _ => ⟨fun h => ?_, fun _ => ?_⟩
  · exact absurd (hstopped.symm.trans h) (by simp)
  · simp only [sharemapFree, onSharemap, freeProcessor, kobjectFree, wp_zoom, wp_rules, wp_getObj,
      wp_onForest]
    refine wp_any_of fun _ r => ⟨fun _ => ?_, fun _ => trivial⟩
    refine wp_any_of fun _ w => ?_
    -- neither the map of the shares nor the page of the object is looked at here
    have hfree : ∀ t : Machine, (modObj p (fun o => { o with live := false }) t).cpus
        halts ctl = t.cpus halts ctl := fun t => cpus_modObj_same rfl rfl
    have hmap : ∀ t : Machine, (modObj p (fun o => { o with ps := { o.ps with
        psSharemap := { o.ps.psSharemap with map := r.1 } } }) t).cpus halts ctl =
        t.cpus halts ctl := fun t => cpus_modObj_same rfl rfl
    exact (hfree _).trans (hmap _)

/-- **Starting a processor**, which is how a call of `processor_vector` ends that does not fail. -/
theorem processorStart_vectors (a : Kobj) (uc : UContext) (hrun : (s.obj p).ps.psRunning = false) :
    wp (processorStart p a uc) (fun _ s' => s'.cpus halts ctl =
      (s.cpus halts ctl).processorVector p uc.ucMode) Exits.any s := by
  simp only [processorStart, atAttach, wp_rules, wp_derefAs_any, wp_modTree, wp_modProcessor,
    wp_getObj]
  intro _ _
  have hvector : (s.cpus halts ctl).processorVector p uc.ucMode = { s.cpus halts ctl with
      psRunning := update (s.cpus halts ctl).psRunning p true
      psHalt := update (s.cpus halts ctl).psHalt p false
      psMode := update (s.cpus halts ctl).psMode p uc.ucMode
      processors := update (s.cpus halts ctl).processors (s.obj p).ps.psPid (some p) } :=
    if_neg (by simp [cpus, hrun])
  rw [hvector]
  let t := s.modObj a fun o => { o with tree := { o.tree with atPsList := p :: o.tree.atPsList } }
  have htree : t.cpus halts ctl = s.cpus halts ctl := cpus_modObj_same rfl rfl
  have hps : (t.obj p).ps = (s.obj p).ps := modObj_eq (g := Kobject.ps) rfl p
  let f : Kobject → Kobject := fun o => { o with ps := { o.ps with
    psAt := some a, psAtref := uc.ucAt, psMode := uc.ucMode, psRunning := true, psHalt := false } }
  have hpid : ((t.modObj p f).obj p).ps.psPid = (s.obj p).ps.psPid := by
    rw [modObj_self, ← hps]
  calc cpus halts ctl { t.modObj p f with
          processors := update s.processors ((t.modObj p f).obj p).ps.psPid (some p) }
      = { (t.modObj p f).cpus halts ctl with
          processors := update s.processors (s.obj p).ps.psPid (some p) } := by
        rw [hpid]
        rfl
    _ = _ := by
        rw [cpus_modObj rfl, htree, show (f (t.obj p)).ps.psPid = (s.obj p).ps.psPid by rw [← hps]]
        simp only [Cpus.mk.injEq, and_true, update_eq_self_iff]
        exact ⟨rfl, rfl, rfl, rfl, trivial, rfl⟩

end

/-! ### What holds in every state -/

/-- The CPU is in the loop of a monitor, which it never leaves. -/
def Ctl.monitors {P : Type} : Ctl P → Bool
  | .poll => true
  | .scan mon => mon
  | .wait mon _ => mon
  | _ => false

def Ctl.inScan {P : Type} : Ctl P → Bool
  | .scan _ => true
  | .wait _ _ => true
  | _ => false

namespace Cpus

variable {C P : Type} {s : Cpus C P} {c d : C} {p q : P} {m : Bool} {k : ℕ}

/-- CPU `c` waits for CPU `d` to stop a processor. -/
def Waits (s : Cpus C P) (c d : C) : Prop :=
  ∃ m p, s.ctl c = .wait m p ∧ s.psRunning p = true ∧ s.psPid p = d

/-- The processor has been asked to halt and will be. -/
structure Asked (s : Cpus C P) (p : P) : Prop where
  psHalt : s.psHalt p = true
  halts : s.halts (s.psPid p) = true
  psMode : s.psMode p ≠ .mon
  monitors : (s.ctl (s.psPid p)).monitors = false

/-- Every CPU has a processor of its own, which runs if the CPU has it to run. Who is waited for
has no references, so it is not started again; and no one waits for itself. -/
structure Sane (s : Cpus C P) : Prop where
  pids : Injective s.psPid
  sched : ∀ c p, s.processors c = some p ↔ s.psRunning p = true ∧ s.psPid p = c
  unref : ∀ c m p, s.ctl c = .wait m p → s.koRef p = 0
  asked : ∀ c m p, s.ctl c = .wait m p → s.psRunning p = true → s.Asked p
  acyclic : Acyclic s.Waits

/-- What a CPU is about to collect and would have to wait for is not run by a monitor, nor by
a CPU that waits for this one already. -/
def MayWait (s : Cpus C P) (c : C) : Prop :=
  ∀ m p l, s.ctl c = .scan m → s.koGcList c = p :: l → s.koRef p = 0 → s.psRunning p = true →
    s.processors c ≠ some p →
    s.psMode p ≠ .mon ∧ (s.ctl (s.psPid p)).monitors = false ∧
      ¬ ReflTransGen s.Waits (s.psPid p) c

section

variable [DecidableEq C] [DecidableEq P] {x : Ctl P}

omit [DecidableEq P] in
lemma setCtl_ctl : (s.setCtl c x).ctl d = if d = c then x else s.ctl d := update_apply ..

lemma haltHere_psRunning :
    (s.haltHere p).psRunning q = if q = p then false else s.psRunning q := update_apply ..

lemma haltHere_processors :
    (s.haltHere p).processors c = if c = s.psPid p then none else s.processors c :=
  update_apply ..

lemma askHalt_psHalt : (s.askHalt p).psHalt q = if q = p then true else s.psHalt q :=
  update_apply ..

lemma askHalt_halts : (s.askHalt p).halts c = if c = s.psPid p then true else s.halts c :=
  update_apply ..

lemma kobjectDecref_koRef :
    (s.kobjectDecref c p).koRef q = if q = p then s.koRef p - 1 else s.koRef q :=
  update_apply ..

lemma kernSyscall_ctl (call : Call P) : (s.kernSyscall c call).ctl = s.ctl := by
  cases call with
  | none => rfl
  | vector p mon =>
    simp only [kernSyscall, processorVector]
    by_cases hp : s.koRef p = 0 <;> by_cases hr : s.psRunning p = true <;> simp [hp, hr]
  | unref p =>
    simp only [kernSyscall, kobjectDecref]
    by_cases hp : s.koRef p = 0 <;> simp [hp]
  | halt p =>
    simp only [kernSyscall, processorHalt, haltHere, askHalt]
    by_cases hp : s.koRef p = 0 <;> by_cases hr : s.processors c = some p <;> simp [hp, hr]

end

namespace Sane

variable [DecidableEq C] [DecidableEq P]

omit [DecidableEq P] in
/-- A CPU goes on to something other than waiting. It becomes a monitor only for the processor it
has to run. -/
lemma setCtl (h : s.Sane) {x : Ctl P} (hx : ∀ m p, x ≠ .wait m p)
    (hmon : x.monitors = true → (s.ctl c).monitors = true ∨
      ∃ p, s.processors c = some p ∧ s.psMode p = .mon) : (s.setCtl c x).Sane := by
  have hctl : ∀ {d m p}, (s.setCtl c x).ctl d = .wait m p → s.ctl d = .wait m p := by
    intro d m p hd
    rw [setCtl_ctl] at hd
    split_ifs at hd
    · exact absurd hd (hx m p)
    · exact hd
  refine ⟨h.pids, h.sched, fun d m p hd => h.unref d m p (hctl hd), fun d m p hd hrun => ?_,
    h.acyclic.mono fun _ _ ⟨m, p, hd, hp⟩ => ⟨m, p, hctl hd, hp⟩⟩
  obtain ⟨h1, h2, h3, h4⟩ := h.asked d m p (hctl hd) hrun
  refine ⟨h1, h2, h3, ?_⟩
  show ((s.setCtl c x).ctl (s.psPid p)).monitors = false
  rw [setCtl_ctl]
  split_ifs with hpc
  · rw [hpc] at h4
    refine Bool.eq_false_iff.mpr fun hxm => ?_
    rcases hmon hxm with hcm | ⟨p', hp', hm⟩
    · rw [h4] at hcm
      exact nomatch hcm
    · -- the CPU has the processor that is waited for to run
      rw [(h.sched c p).mpr ⟨hrun, hpc⟩] at hp'
      cases hp'
      exact h3 hm
  · exact h4

lemma haltHere (h : s.Sane) (p : P) : (s.haltHere p).Sane := by
  have hrun : ∀ {q}, (s.haltHere p).psRunning q = true → s.psRunning q = true := by
    intro q hq
    rw [haltHere_psRunning] at hq
    split_ifs at hq
    exact hq
  refine ⟨h.pids, fun c q => ?_, h.unref, fun c m q hc hq => ?_,
    h.acyclic.mono fun _ _ ⟨m, q, hc, hq, hpid⟩ => ⟨m, q, hc, hrun hq, hpid⟩⟩
  · rw [haltHere_processors, haltHere_psRunning]
    show _ ↔ _ ∧ s.psPid q = c
    have hsched := h.sched c q
    split_ifs with hc hq hq
    · simp
    · refine ⟨nofun, fun ⟨_, hpid⟩ => absurd (h.pids (hpid.trans hc)) hq⟩
    · subst hq
      exact ⟨fun hs => absurd (hsched.mp hs).2.symm hc, fun h => nomatch h.1⟩
    · exact hsched
  · obtain ⟨h1, h2, h3, h4⟩ := h.asked c m q hc (hrun hq)
    exact ⟨h1, h2, h3, h4⟩

lemma askHalt (h : s.Sane) (p : P) : (s.askHalt p).Sane := by
  refine ⟨h.pids, h.sched, h.unref, fun c m q hc hq => ?_, h.acyclic⟩
  obtain ⟨h1, h2, h3, h4⟩ := h.asked c m q hc hq
  refine ⟨?_, ?_, h3, h4⟩
  · rw [askHalt_psHalt, h1, ite_self]
  · show (s.askHalt p).halts (s.psPid q) = true
    rw [askHalt_halts, h2, ite_self]

lemma processorHalt (h : s.Sane) (c : C) (p : P) : (s.processorHalt c p).Sane := by
  unfold Cpus.processorHalt
  split_ifs
  · exact h.haltHere p
  · exact h.askHalt p

lemma processorVector (h : s.Sane) (hp : s.koRef p ≠ 0) (mode : PsMode) :
    (s.processorVector p mode).Sane := by
  unfold Cpus.processorVector
  split_ifs with hrun
  · exact h
  have hne : ∀ {c m q}, s.ctl c = .wait m q → q ≠ p := fun {c m q} hc heq =>
    hp (heq ▸ h.unref c m q hc)
  refine ⟨h.pids, fun c q => ?_, h.unref, fun c m q hc hq => ?_,
    h.acyclic.mono fun _ _ ⟨m, q, hc, hq, hpid⟩ => ⟨m, q, hc, ?_, hpid⟩⟩
  · simp only [update_apply]
    have hsched := h.sched c q
    split_ifs with hc hq hq
    · simp [hc, hq]
    · simp only [Option.some.injEq, eq_comm (a := p), hq, false_iff]
      exact fun hr => hq (h.pids (hr.2.trans hc))
    · subst hq
      exact ⟨fun hs => absurd (hsched.mp hs).2.symm hc, fun hr => absurd hr.2.symm hc⟩
    · exact hsched
  · simp only [update_of_ne (hne hc)] at hq
    obtain ⟨h1, h2, h3, h4⟩ := h.asked c m q hc hq
    exact ⟨by simpa only [update_of_ne (hne hc)] using h1, h2,
      by simpa only [update_of_ne (hne hc)] using h3, h4⟩
  · simpa only [update_of_ne (hne hc)] using hq

lemma kobjectDecref (h : s.Sane) (c : C) (p : P) : (s.kobjectDecref c p).Sane := by
  refine ⟨h.pids, h.sched, fun d m q hd => ?_, fun d m q hd hrun => ?_, h.acyclic⟩
  · rw [kobjectDecref_koRef]
    have hq := h.unref d m q hd
    split_ifs with hqp
    · rw [← hqp, hq]
    · exact hq
  · obtain ⟨h1, h2, h3, h4⟩ := h.asked d m q hd hrun
    exact ⟨h1, h2, h3, h4⟩

lemma kernSyscall (h : s.Sane) (c : C) (call : Call P) : (s.kernSyscall c call).Sane := by
  cases call with
  | none => exact h
  | vector p mon =>
    rw [Cpus.kernSyscall]
    by_cases hp : s.koRef p = 0
    · rwa [if_pos hp]
    · rw [if_neg hp]
      exact h.processorVector hp _
  | unref p =>
    rw [Cpus.kernSyscall]
    split_ifs
    · exact h
    · exact h.kobjectDecref c p
  | halt p =>
    rw [Cpus.kernSyscall]
    split_ifs
    · exact h
    · exact h.processorHalt c p

omit [DecidableEq P] in
lemma clearHalts (h : s.Sane)
    (hno : ∀ q, s.psRunning q = true → s.psPid q = c → s.psHalt q = false) :
    Sane { s with halts := update s.halts c false } := by
  refine ⟨h.pids, h.sched, h.unref, fun d m q hd hrun => ?_, h.acyclic⟩
  obtain ⟨h1, h2, h3, h4⟩ := h.asked d m q hd hrun
  refine ⟨h1, ?_, h3, h4⟩
  have hpid : s.psPid q ≠ c := fun hpid => by simp [hno q hrun hpid] at h1
  simpa only [update_of_ne hpid] using h2

lemma trapHalt (h : s.Sane) (c : C) : (s.trapHalt c).Sane := by
  unfold Cpus.trapHalt
  cases hp : s.processors c with
  | none =>
    refine h.clearHalts fun q hrun hpid => ?_
    rw [(h.sched c q).mpr ⟨hrun, hpid⟩] at hp
    exact nomatch hp
  | some p =>
    dsimp only
    split_ifs with hhalt
    · have hpid := ((h.sched c p).mp hp).2
      refine (h.haltHere p).clearHalts fun q hrun hq => ?_
      -- the only processor of the CPU has been halted
      obtain rfl : q = p := h.pids (hq.trans hpid.symm)
      simp [haltHere_psRunning] at hrun
    · refine h.clearHalts fun q hrun hpid => ?_
      rw [(h.sched c q).mpr ⟨hrun, hpid⟩] at hp
      cases hp
      exact Bool.eq_false_iff.mpr hhalt

omit [DecidableEq C] [DecidableEq P] in
lemma pop (h : s.Sane) (l : C → List P) : Sane { s with koGcList := l } := by
  refine ⟨h.pids, h.sched, h.unref, fun d m q hd hrun => ?_, h.acyclic⟩
  obtain ⟨h1, h2, h3, h4⟩ := h.asked d m q hd hrun
  exact ⟨h1, h2, h3, h4⟩

lemma startWait (h : s.Sane) (hc : s.ctl c = .scan m) (href : s.koRef p = 0)
    (hmode : s.psMode p ≠ .mon) (hmon : (s.ctl (s.psPid p)).monitors = false)
    (hback : ¬ ReflTransGen s.Waits (s.psPid p) c) :
    ((s.askHalt p).setCtl c (.wait m p)).Sane := by
  have hother : s.psPid p ≠ c := fun heq => hback (heq ▸ .refl)
  have hctl : ∀ {d m' q}, ((s.askHalt p).setCtl c (.wait m p)).ctl d = .wait m' q →
      d = c ∧ q = p ∨ s.ctl d = .wait m' q := by
    intro d m' q hd
    rw [setCtl_ctl] at hd
    split_ifs at hd with hdc
    · cases hd
      exact .inl ⟨hdc, rfl⟩
    · exact .inr hd
  -- the CPU is in the loop of a monitor as much as before
  have hmonitors : ∀ d, (((s.askHalt p).setCtl c (.wait m p)).ctl d).monitors =
      (s.ctl d).monitors := by
    intro d
    rw [setCtl_ctl]
    split_ifs with hdc
    · rw [hdc, hc]
      rfl
    · rfl
  refine ⟨h.pids, h.sched, fun d m' q hd => ?_, fun d m' q hd hrun => ?_, ?_⟩
  · rcases hctl hd with ⟨-, rfl⟩ | hd
    · exact href
    · exact h.unref d m' q hd
  · rcases hctl hd with ⟨-, rfl⟩ | hd
    · refine ⟨?_, ?_, hmode, (hmonitors _).trans hmon⟩
      · show (s.askHalt q).psHalt q = true
        rw [askHalt_psHalt, if_pos rfl]
      · show (s.askHalt q).halts (s.psPid q) = true
        rw [askHalt_halts, if_pos rfl]
    · obtain ⟨h1, h2, h3, h4⟩ := (h.askHalt p).asked d m' q hd hrun
      exact ⟨h1, h2, h3, (hmonitors _).trans h4⟩
  · refine (h.acyclic.insert hback).mono fun d e hde => ?_
    obtain ⟨m', q, hd, hrun, hpid⟩ := hde
    rcases hctl hd with ⟨hdc, rfl⟩ | hd
    · exact .inr ⟨hdc, hpid.symm⟩
    · exact .inl ⟨m', q, hd, hrun, hpid⟩

lemma kobjectGcScan (h : s.Sane) (hc : s.ctl c = .scan m) (hmay : s.MayWait c) :
    (s.kobjectGcScan c m).Sane := by
  unfold Cpus.kobjectGcScan
  cases hl : s.koGcList c with
  | nil =>
    refine h.setCtl (fun _ _ => by cases m <;> nofun) fun hmon => .inl ?_
    rw [hc]
    cases m with
    | false => exact nomatch hmon
    | true => rfl
  | cons p l =>
    have hpop := h.pop (update s.koGcList c l)
    dsimp only
    unfold Cpus.gcObject
    split_ifs with hskip hhere
    · exact hpop
    · exact hpop.haltHere p
    · rw [not_or, not_not, Bool.not_eq_false] at hskip
      obtain ⟨hmode, hmon, hback⟩ := hmay m p l hc hl hskip.1 hskip.2 hhere
      exact hpop.startWait hc hskip.1 hmode hmon hback

/-- **A step keeps all this** if the CPU may wait for what it is about to wait for. -/
lemma step (h : s.Sane) (hmay : s.MayWait c) (call : Call P) : (s.step c call).Sane := by
  have hscan : ∀ {t : Cpus C P}, t.Sane → (t.setCtl c (.scan false)).Sane := fun ht =>
    ht.setCtl (fun _ _ => nofun) nofun
  unfold Cpus.step
  cases hc : s.ctl c with
  | user =>
    dsimp only
    split_ifs
    · exact hscan (h.trapHalt c)
    · cases call with
      | none => exact h
      | vector p mon => exact hscan (h.kernSyscall c _)
      | unref p => exact hscan (h.kernSyscall c _)
      | halt p => exact hscan (h.kernSyscall c _)
  | idle =>
    dsimp only
    cases hp : s.processors c with
    | none => exact h
    | some p =>
      refine h.setCtl (fun _ _ => by split_ifs <;> nofun) fun hmon => .inr ⟨p, hp, ?_⟩
      by_contra hmode
      rw [if_neg hmode] at hmon
      exact nomatch hmon
  | poll =>
    refine (h.kernSyscall c call).setCtl (fun _ _ => nofun) fun _ => .inl ?_
    rw [kernSyscall_ctl, hc]
    rfl
  | scan m => exact h.kobjectGcScan hc hmay
  | wait m p =>
    dsimp only
    split_ifs
    · exact h
    · refine h.setCtl (fun _ _ => nofun) fun hmon => .inl ?_
      rw [hc]
      exact hmon

end Sane

/-! ### What a step leaves alone -/

/-- A CPU runs no processor but its own. -/
def Placed (s : Cpus C P) : Prop := ∀ c p, s.processors c = some p → s.psPid p = c

/-- A step of CPU `c` does not move the other CPUs, touch their lists or stop their processors. A
processor without references gets none and is not started. -/
structure Frame (c : C) (s s' : Cpus C P) : Prop where
  psPid : s'.psPid = s.psPid
  ctl : ∀ d ≠ c, s'.ctl d = s.ctl d
  list : ∀ d ≠ c, s'.koGcList d = s.koGcList d
  koRef : ∀ p, s.koRef p = 0 → s'.koRef p = 0
  stopped : ∀ p, s.koRef p = 0 → s.psRunning p = false → s'.psRunning p = false
  placed : s.Placed → s'.Placed
  running : s.Placed → ∀ p, s.psRunning p = true → s.psPid p ≠ c → s'.psRunning p = true

namespace Frame

variable {s' t : Cpus C P}

lemma refl (c : C) (s : Cpus C P) : Frame c s s :=
  ⟨rfl, fun _ _ => rfl, fun _ _ => rfl, fun _ => id, fun _ _ => id, id, fun _ _ h _ => h⟩

lemma trans (h : Frame c s t) (h' : Frame c t s') : Frame c s s' where
  psPid := h'.psPid.trans h.psPid
  ctl d hd := (h'.ctl d hd).trans (h.ctl d hd)
  list d hd := (h'.list d hd).trans (h.list d hd)
  koRef p hp := h'.koRef p (h.koRef p hp)
  stopped p hp hr := h'.stopped p (h.koRef p hp) (h.stopped p hp hr)
  placed hs := h'.placed (h.placed hs)
  running hs p hp hne := h'.running (h.placed hs) p (h.running hs p hp hne) (by rwa [h.psPid])

variable [DecidableEq C] [DecidableEq P]

omit [DecidableEq P] in
lemma setCtl (c : C) (x : Ctl P) (s : Cpus C P) : Frame c s (s.setCtl c x) :=
  { refl c s with ctl := fun d hd => by rw [setCtl_ctl, if_neg hd] }

lemma haltHere (hp : s.processors c = some p) : Frame c s (s.haltHere p) := by
  refine { refl c s with stopped := fun q _ hq => ?_, placed := fun hs d q hd => ?_,
                         running := fun hs q hq hne => ?_ }
  · rw [haltHere_psRunning, hq, ite_self]
  · rw [haltHere_processors] at hd
    split_ifs at hd
    exact hs d q hd
  · have hqp : q ≠ p := fun heq => hne (heq ▸ hs c p hp)
    rw [haltHere_psRunning, if_neg hqp, hq]

lemma askHalt (c : C) (p : P) (s : Cpus C P) : Frame c s (s.askHalt p) :=
  { refl c s with }

lemma processorHalt (c : C) (p : P) (s : Cpus C P) : Frame c s (s.processorHalt c p) := by
  unfold Cpus.processorHalt
  split_ifs with hp
  · exact haltHere hp
  · exact askHalt c p s

lemma processorVector (hp : s.koRef p ≠ 0) (mode : PsMode) :
    Frame c s (s.processorVector p mode) := by
  unfold Cpus.processorVector
  split_ifs
  · exact refl c s
  · refine { refl c s with stopped := fun q hq hrun => ?_, placed := fun hs d q hd => ?_,
                           running := fun _ q hq _ => ?_ }
    · have hqp : q ≠ p := fun heq => hp (heq ▸ hq)
      simpa only [update_of_ne hqp] using hrun
    · simp only [update_apply] at hd
      split_ifs at hd with hdp
      · cases hd
        exact hdp.symm
      · exact hs d q hd
    · simp only [update_apply, hq, ite_self]

lemma kobjectDecref (c : C) (p : P) (s : Cpus C P) : Frame c s (s.kobjectDecref c p) := by
  refine { refl c s with list := fun d hd => ?_, koRef := fun q hq => ?_ }
  · unfold Cpus.kobjectDecref
    split_ifs
    · exact update_of_ne hd ..
    · rfl
  · rw [kobjectDecref_koRef]
    split_ifs with hqp
    · rw [← hqp, hq]
    · exact hq

lemma kernSyscall (c : C) (call : Call P) (s : Cpus C P) : Frame c s (s.kernSyscall c call) := by
  cases call with
  | none => exact refl c s
  | vector p mon =>
    rw [Cpus.kernSyscall]
    by_cases hp : s.koRef p = 0
    · rw [if_pos hp]
      exact refl c s
    · rw [if_neg hp]
      exact processorVector hp _
  | unref p =>
    rw [Cpus.kernSyscall]
    split_ifs
    · exact refl c s
    · exact kobjectDecref c p s
  | halt p =>
    rw [Cpus.kernSyscall]
    split_ifs
    · exact refl c s
    · exact processorHalt c p s

lemma trapHalt (c : C) (s : Cpus C P) : Frame c s (s.trapHalt c) := by
  have hclear : Frame c s { s with halts := update s.halts c false } := { refl c s with }
  unfold Cpus.trapHalt
  cases hp : s.processors c with
  | none => exact hclear
  | some p =>
    dsimp only
    split_ifs
    · exact hclear.trans (haltHere hp)
    · exact hclear

lemma kobjectGcScan (c : C) (m : Bool) (s : Cpus C P) : Frame c s (s.kobjectGcScan c m) := by
  unfold Cpus.kobjectGcScan
  cases s.koGcList c with
  | nil => exact setCtl c _ s
  | cons p l =>
    have hpop : Frame c s { s with koGcList := update s.koGcList c l } :=
      { refl c s with list := fun d hd => update_of_ne hd .. }
    dsimp only
    unfold Cpus.gcObject
    split_ifs with _ hp
    · exact hpop
    · exact hpop.trans (haltHere hp)
    · exact hpop.trans ((askHalt c p _).trans (setCtl c _ _))

lemma step (c : C) (call : Call P) (s : Cpus C P) : Frame c s (s.step c call) := by
  unfold Cpus.step
  cases s.ctl c with
  | user =>
    dsimp only
    split_ifs
    · exact (trapHalt c s).trans (setCtl c _ _)
    · cases call with
      | none => exact refl c s
      | vector p mon => exact (kernSyscall c _ s).trans (setCtl c _ _)
      | unref p => exact (kernSyscall c _ s).trans (setCtl c _ _)
      | halt p => exact (kernSyscall c _ s).trans (setCtl c _ _)
  | idle =>
    dsimp only
    cases s.processors c with
    | none => exact refl c s
    | some p => exact setCtl c _ s
  | poll => exact (kernSyscall c call s).trans (setCtl c _ _)
  | scan m => exact kobjectGcScan c m s
  | wait m p =>
    dsimp only
    split_ifs
    · exact refl c s
    · exact setCtl c _ s

end Frame

/-! ### What a CPU does on its turn -/

section

variable [DecidableEq C] [DecidableEq P] {call : Call P}

lemma gcObject_koGcList : (s.gcObject c m p).koGcList = s.koGcList := by
  unfold gcObject
  split_ifs <;> rfl

lemma step_scan (call : Call P) (hc : s.ctl c = .scan m) : ((s.step c call).ctl c).inScan = false ∨
    ((s.step c call).koGcList c).length < (s.koGcList c).length := by
  simp only [step, hc, kobjectGcScan]
  cases hl : s.koGcList c with
  | nil =>
    left
    rw [setCtl_ctl, if_pos rfl]
    cases m <;> rfl
  | cons p l =>
    right
    dsimp only
    rw [gcObject_koGcList]
    show (update s.koGcList c l c).length < l.length + 1
    rw [update_self]
    exact Nat.lt_succ_self _

lemma step_wait (hc : s.ctl c = .wait m p) (hp : s.psRunning p = true) : s.step c call = s := by
  simp only [step, hc, hp, if_true]

lemma step_wait_over (hc : s.ctl c = .wait m p) (hp : s.psRunning p = false) :
    (s.step c call).ctl c = .scan m ∧ (s.step c call).koGcList = s.koGcList := by
  simp only [step, hc, hp, Bool.false_eq_true, if_false]
  exact ⟨by rw [setCtl_ctl, if_pos rfl], rfl⟩

lemma step_user (h : s.Sane) (hc : s.ctl (s.psPid p) = .user) (hp : s.psRunning p = true)
    (ha : s.Asked p) : (s.step (s.psPid p) call).psRunning p = false := by
  have hsched := (h.sched _ p).mpr ⟨hp, rfl⟩
  simp only [step, hc, ha.halts, if_true, trapHalt, hsched, ha.psHalt]
  exact update_self ..

lemma step_idle (h : s.Sane) (hc : s.ctl (s.psPid p) = .idle) (hp : s.psRunning p = true)
    (ha : s.Asked p) : (s.step (s.psPid p) call).ctl (s.psPid p) = .user := by
  have hsched := (h.sched _ p).mpr ⟨hp, rfl⟩
  simp only [step, hc, hsched, if_neg ha.psMode]
  rw [setCtl_ctl, if_pos rfl]

end

/-! ### Runs -/

section

variable [DecidableEq C] [DecidableEq P] {sch : ℕ → C × Call P} {F : Set C}

lemma run_sane (h : s.Sane) (hmay : ∀ k, (s.run sch k).MayWait (sch k).1) :
    ∀ k, (s.run sch k).Sane
  | 0 => h
  | k + 1 => (run_sane h hmay k).step (hmay k) _

lemma run_frame (k : ℕ) : Frame (sch k).1 (s.run sch k) (s.run sch (k + 1)) := .step _ _ _

lemma run_psPid : ∀ k, (s.run sch k).psPid = s.psPid
  | 0 => rfl
  | k + 1 => (run_frame k).psPid.trans (run_psPid k)

lemma next_turn (hfair : Fair fun k => (sch k).1) {x : Ctl P}
    (hk : (s.run sch k).ctl c = x) : ∃ j ≥ k, (sch j).1 = c ∧ (s.run sch j).ctl c = x :=
  hfair.next_turn c hk fun j _ hne hj => ((run_frame j).ctl c hne.symm).trans hj

lemma length_list_le (hk : ((s.run sch k).ctl c).inScan = true)
    (hk' : ((s.run sch (k + 1)).ctl c).inScan = true) :
    ((s.run sch (k + 1)).koGcList c).length ≤ ((s.run sch k).koGcList c).length := by
  by_cases hc : (sch k).1 = c
  · cases hctl : (s.run sch k).ctl c with
    | scan m =>
      rcases step_scan (sch k).2 hctl with hout | hlt
      · rw [run, hc, hout] at hk'
        exact nomatch hk'
      · rw [run, hc]
        exact hlt.le
    | wait m p =>
      rw [run, hc]
      cases hp : (s.run sch k).psRunning p with
      | true => rw [step_wait hctl hp]
      | false => rw [(step_wait_over hctl hp).2]
    | _ => rw [hctl] at hk; exact nomatch hk
  · rw [(run_frame k).list c (Ne.symm hc)]

/-- **A scan that does not end** comes to wait for one processor and never goes on. -/
lemma waits_at_last (hfair : Fair fun k => (sch k).1)
    (hk : ∀ j ≥ k, ((s.run sch j).ctl c).inScan = true) :
    ∃ n ≥ k, ∃ m p, ∀ j ≥ n, (s.run sch j).ctl c = .wait m p := by
  obtain ⟨n, hn, hstable⟩ := exists_stable (f := fun j => ((s.run sch j).koGcList c).length)
    fun j (hj : j ≥ k) => length_list_le (hk j hj) (hk (j + 1) (by omega))
  -- the list has become as short as it gets, so no round of the scan comes any more
  have hwait : ∀ j ≥ n, ∃ m p, (s.run sch j).ctl c = .wait m p := by
    intro j hj
    have hscan := hk j (by omega)
    cases hctl : (s.run sch j).ctl c with
    | wait m p => exact ⟨m, p, rfl⟩
    | scan m =>
      obtain ⟨i, hi, hturn, hctl⟩ := next_turn hfair hctl
      rcases step_scan (sch i).2 hctl with hout | hlt
      · have hin := hk (i + 1) (by omega)
        rw [run, hturn, hout] at hin
        exact nomatch hin
      · have h1 := hstable i (by omega)
        have h2 := hstable (i + 1) (by omega)
        rw [run, hturn] at h2
        omega
    | _ => rw [hctl] at hscan; exact nomatch hscan
  obtain ⟨m, p, hp⟩ := hwait n (Nat.le_refl n)
  refine ⟨n, hn, m, p, fun j hj => ?_⟩
  induction j, hj using Nat.le_induction with
  | base => exact hp
  | succ j hj ih =>
    by_cases hc : (sch j).1 = c
    · cases hrun : (s.run sch j).psRunning p with
      | true => rw [run, hc, step_wait ih hrun, ih]
      | false =>
        obtain ⟨m', p', hnext⟩ := hwait (j + 1) (by omega)
        rw [run, hc, (step_wait_over ih hrun).1] at hnext
        exact nomatch hnext
    · rw [(run_frame j).ctl c (Ne.symm hc), ih]

lemma runs_forever (hfair : Fair fun k => (sch k).1) (hsane : ∀ k, (s.run sch k).Sane)
    (hk : ∀ j ≥ k, (s.run sch j).ctl c = .wait m p) :
    ∀ j ≥ k, (s.run sch j).psRunning p = true := by
  intro j hj
  by_contra hno
  have hstopped : ∀ i ≥ j, (s.run sch i).psRunning p = false := by
    intro i hi
    induction i, hi using Nat.le_induction with
    | base => exact Bool.eq_false_iff.mpr hno
    | succ i hi ih =>
      exact (run_frame i).stopped p ((hsane i).unref c m p (hk i (by omega))) ih
  obtain ⟨i, hi, hturn, -⟩ := next_turn hfair (hk j hj)
  have hnext := hk (i + 1) (by omega)
  rw [run, hturn, (step_wait_over (hk i (by omega)) (hstopped i hi)).1] at hnext
  exact nomatch hnext

/-- **The CPU that is waited for** without end does not leave its own scan. -/
lemma waited_for_scans (hfair : Fair fun k => (sch k).1) (hsane : ∀ k, (s.run sch k).Sane)
    (hk : ∀ j ≥ k, (s.run sch j).ctl c = .wait m p) :
    ∀ j ≥ k, ((s.run sch j).ctl (s.psPid p)).inScan = true := by
  have hruns := runs_forever hfair hsane hk
  have hasked : ∀ j ≥ k, (s.run sch j).Asked p := fun j hj =>
    (hsane j).asked c m p (hk j hj) (hruns j hj)
  -- in user code the interrupt would be taken
  have huser : ∀ j ≥ k, (s.run sch j).ctl (s.psPid p) ≠ .user := by
    intro j hj hctl
    obtain ⟨i, hi, hturn, hctl⟩ := next_turn hfair hctl
    have hnext := hruns (i + 1) (by omega)
    rw [← run_psPid i] at hctl hturn
    rw [run, hturn, step_user (hsane i) hctl (hruns i (by omega)) (hasked i (by omega))] at hnext
    exact nomatch hnext
  intro j hj
  cases hctl : (s.run sch j).ctl (s.psPid p) with
  | user => exact absurd hctl (huser j hj)
  | idle =>
    obtain ⟨i, hi, hturn, hctl⟩ := next_turn hfair hctl
    have hnext := huser (i + 1) (by omega)
    rw [← run_psPid i] at hctl hturn hnext
    rw [run, hturn] at hnext
    exact absurd (step_idle (hsane i) hctl (hruns i (by omega)) (hasked i (by omega))) hnext
  | poll =>
    have hmon := (hasked j hj).monitors
    rw [run_psPid, hctl] at hmon
    exact nomatch hmon
  | scan m => rfl
  | wait m p => rfl

/-- The state a run starts in: every CPU has a processor of its own, and no CPU waits. -/
structure Start (s : Cpus C P) : Prop where
  pids : Injective s.psPid
  sched : ∀ c p, s.processors c = some p ↔ s.psRunning p = true ∧ s.psPid p = c
  quiet : ∀ c m p, s.ctl c ≠ .wait m p

omit [DecidableEq C] [DecidableEq P] in
lemma Start.sane (h : s.Start) : s.Sane where
  pids := h.pids
  sched := h.sched
  unref c m p hc := absurd hc (h.quiet c m p)
  asked c m p hc := absurd hc (h.quiet c m p)
  acyclic c hc := by
    obtain ⟨d, ⟨m, p, hw, -⟩, -⟩ := TransGen.head'_iff.mp hc
    exact h.quiet c m p hw

/-- **Every scan returns** in every fair run in which no CPU begins to wait for a monitor, or for
a CPU that waits for it. -/
theorem every_scan_returns [Finite C] (h : s.Start) (hfair : Fair fun k => (sch k).1)
    (hmay : ∀ k, (s.run sch k).MayWait (sch k).1) (c : C) (k : ℕ) :
    ∃ j ≥ k, ((s.run sch j).ctl c).inScan = false := by
  by_contra hno
  push Not at hno
  simp only [ne_eq, Bool.not_eq_false] at hno
  have hsane := run_sane h.sane hmay
  -- the CPUs that wait without end, and a time from which on all of them wait
  let F : Set C := {c | ∃ n m p, ∀ j ≥ n, (s.run sch j).ctl c = .wait m p}
  have hF : F.Nonempty := by
    obtain ⟨n, -, hn⟩ := waits_at_last hfair hno
    exact ⟨c, n, hn⟩
  have hfrom : ∀ c, ∃ n, c ∈ F → ∃ m p, ∀ j ≥ n, (s.run sch j).ctl c = .wait m p := by
    intro c
    by_cases hc : c ∈ F
    · obtain ⟨n, hn⟩ := hc
      exact ⟨n, fun _ => hn⟩
    · exact ⟨0, fun h => absurd h hc⟩
  choose n hn using hfrom
  obtain ⟨N, hN⟩ := (Set.finite_range n).bddAbove
  obtain ⟨a, ha, hfree⟩ := (hsane N).acyclic.exists_free hF
  obtain ⟨m, p, hwait⟩ := hn a ha
  have hle : n a ≤ N := hN (Set.mem_range_self a)
  have hd : s.psPid p ∈ F := by
    obtain ⟨n', -, hn'⟩ := waits_at_last hfair (waited_for_scans hfair hsane hwait)
    exact ⟨n', hn'⟩
  refine hfree _ hd ⟨m, p, hwait N hle, runs_forever hfair hsane hwait N hle, ?_⟩
  rw [run_psPid]

/-! ### Circles -/

/-- Every one of these CPUs waits for another of them. -/
def Stuck (s : Cpus C P) (F : Set C) : Prop :=
  ∀ c ∈ F, ∃ m p, s.ctl c = .wait m p ∧ s.psRunning p = true ∧ s.psPid p ∈ F

lemma Stuck.step (h : s.Stuck F) (hs : s.Placed) (c : C) (call : Call P) :
    (s.step c call).Stuck F := by
  by_cases hc : c ∈ F
  · obtain ⟨m, p, hctl, hrun, -⟩ := h c hc
    rwa [step_wait hctl hrun]
  · have hframe := Frame.step c call s
    intro d hd
    obtain ⟨m, p, hctl, hrun, hp⟩ := h d hd
    refine ⟨m, p, ?_, hframe.running hs p hrun fun heq => hc (heq ▸ hp), by rwa [hframe.psPid]⟩
    rw [hframe.ctl d fun heq => hc (heq ▸ hd), hctl]

/-- **CPUs that wait for each other** do so for ever, whatever the other CPUs do. -/
theorem circle_waits_forever (hs : s.Placed) (h : (s.run sch k).Stuck F) :
    ∀ j ≥ k, (s.run sch j).Stuck F := by
  have hplaced : ∀ j, (s.run sch j).Placed := by
    intro j
    induction j with
    | zero => exact hs
    | succ j ih => exact (run_frame j).placed ih
  intro j hj
  induction j, hj using Nat.le_induction with
  | base => exact h
  | succ j hj ih => exact ih.step (hplaced j) _ _

end

/-! ### Two CPUs -/

/-- Two CPUs that run their processors in user code, each of them referred to once. -/
def pair : Cpus Bool Bool where
  psPid := id
  psRunning _ := true
  psHalt _ := false
  psMode _ := .reg
  koRef _ := 1
  processors := some
  koGcList _ := []
  halts _ := false
  ctl _ := .user

/-- The same with a monitor on the second CPU. -/
def monitorPair : Cpus Bool Bool where
  __ := pair
  psMode p := if p then .mon else .reg
  ctl c := if c then .poll else .user

/-- The CPUs take turns. The first one drops the other's processor, and the second one does so if
`both` is set; no other calls are made. -/
def turns (both : Bool) (k : ℕ) : Bool × Call Bool :=
  (k % 2 = 1, if k = 0 then .unref true else if k = 1 ∧ both then .unref false else .none)

lemma pair_start : pair.Start :=
  ⟨fun _ _ => id, fun _ _ => by simp [pair, eq_comm], fun _ _ _ => nofun⟩

lemma monitorPair_start : monitorPair.Start :=
  ⟨fun _ _ => id, fun _ _ => by simp [monitorPair, pair, eq_comm],
    fun c _ _ => by cases c <;> nofun⟩

lemma turns_fair (both : Bool) : Fair fun k => (turns both k).1 := by
  intro c k
  cases c with
  | false => exact ⟨2 * k, by omega, by simp [turns]⟩
  | true => exact ⟨2 * k + 1, by omega, by simp [turns]⟩

lemma turns_none {both : Bool} (hk : 2 ≤ k) : turns both k = (decide (k % 2 = 1), .none) := by
  rw [turns, if_neg (by omega), if_neg (by omega)]

/-- The CPU has nothing to wait for. -/
def Calm (s : Cpus C P) (c : C) : Prop :=
  ∀ p ∈ (s.koGcList c).head?, (s.ctl c).inScan = true → s.koRef p = 0 → s.psRunning p = false

lemma Calm.mayWait (h : s.Calm c) : s.MayWait c := by
  intro m p l hc hl href hrun
  have hstopped := h p (by rw [hl]; rfl) (by rw [hc]; rfl) href
  rw [hrun] at hstopped
  exact nomatch hstopped

instance (s : Cpus Bool Bool) (c : Bool) : Decidable (s.Calm c) :=
  inferInstanceAs (Decidable (∀ p, p ∈ (s.koGcList c).head? → _))

/-- The second CPU has stopped its processor, and nothing is left to do. -/
def Done (s : Cpus Bool Bool) : Prop :=
  (s.ctl false = .user ∨ s.ctl false = .idle) ∧ s.ctl true = .idle ∧
    s.processors false = some false ∧ s.processors true = none ∧ s.psMode false = .reg ∧
    s.halts false = false

lemma Done.step {s : Cpus Bool Bool} (h : s.Done) (c : Bool) : (s.step c .none).Done := by
  obtain ⟨hctl, hidle, hrun, hnone, hmode, hhalts⟩ := h
  cases c with
  | false =>
    rcases hctl with hctl | hctl
    · simp only [Cpus.step, hctl, hhalts, Bool.false_eq_true, if_false]
      exact ⟨.inl hctl, hidle, hrun, hnone, hmode, hhalts⟩
    · simp only [Cpus.step, hctl, hrun, hmode, reduceCtorEq, if_false]
      exact ⟨.inl (by rw [setCtl_ctl, if_pos rfl]), by rw [setCtl_ctl, if_neg nofun, hidle],
        hrun, hnone, hmode, hhalts⟩
  | true =>
    simp only [Cpus.step, hidle, hnone]
    exact ⟨hctl, hidle, hrun, hnone, hmode, hhalts⟩

lemma Done.calm {s : Cpus Bool Bool} (h : s.Done) (c : Bool) : s.Calm c := by
  intro p _ hscan
  obtain ⟨hctl | hctl, hidle, -⟩ := h <;> cases c <;> simp [hctl, hidle, Ctl.inScan] at hscan

lemma pair_mayWait (k : ℕ) : (pair.run (turns false) k).MayWait (turns false k).1 := by
  have hdone : ∀ j ≥ 7, (pair.run (turns false) j).Done := by
    intro j hj
    induction j, hj using Nat.le_induction with
    | base => exact ⟨.inr rfl, rfl, rfl, rfl, rfl, rfl⟩
    | succ j hj ih =>
      rw [run, turns_none (by omega)]
      exact ih.step _
  have hcalm : ∀ k < 7, k ≠ 2 → (pair.run (turns false) k).Calm (turns false k).1 := by decide
  rcases Nat.lt_or_ge k 7 with hk | hk
  · by_cases h2 : k = 2
    · -- the first CPU begins to wait for the second one, which is in user code
      subst h2
      intro m p l _ hl _ _ _
      obtain rfl : p = true := by
        cases hl
        rfl
      refine ⟨nofun, rfl, fun hback => ?_⟩
      rcases hback.cases_head with heq | ⟨d, ⟨m', q, hctl, -⟩, -⟩
      · exact nomatch heq
      · exact nomatch hctl
    · exact (hcalm k hk h2).mayWait
  · exact ((hdone k hk).calm _).mayWait

/-- The first CPU waits for the second one, and both are out of their scans again and again. -/
theorem every_scan_returns_pair :
    ((pair.run (turns false) 3).ctl false).inScan = true ∧
      ∀ c k, ∃ j ≥ k, ((pair.run (turns false) j).ctl c).inScan = false :=
  ⟨rfl, every_scan_returns pair_start (turns_fair false) pair_mayWait⟩

lemma monitor_never_stops : ∀ j ≥ 3,
    (monitorPair.run (turns false) j).ctl false = .wait false true ∧
      (monitorPair.run (turns false) j).psRunning true = true ∧
      (monitorPair.run (turns false) j).koGcList true = [] ∧
      ((monitorPair.run (turns false) j).ctl true = .poll ∨
        (monitorPair.run (turns false) j).ctl true = .scan true) := by
  intro j hj
  induction j, hj using Nat.le_induction with
  | base => exact ⟨rfl, rfl, rfl, .inr rfl⟩
  | succ j hj ih =>
    obtain ⟨hctl, hrun, hlist, hmon⟩ := ih
    rw [run, turns_none (by omega)]
    cases decide (j % 2 = 1) with
    | false =>
      rw [step_wait hctl hrun]
      exact ⟨hctl, hrun, hlist, hmon⟩
    | true =>
      have hother : ∀ x : Ctl Bool, ((monitorPair.run (turns false) j).setCtl true x).ctl false =
          .wait false true := fun x => by rw [setCtl_ctl, if_neg nofun, hctl]
      rcases hmon with hmon | hmon
      · simp only [step, hmon, kernSyscall]
        exact ⟨hother _, hrun, hlist, .inr (by rw [setCtl_ctl, if_pos rfl])⟩
      · simp only [step, hmon, kobjectGcScan, hlist]
        exact ⟨hother _, hrun, hlist, .inl (by rw [setCtl_ctl, if_pos rfl]; rfl)⟩

/-- **Scans that never return**: two CPUs that have dropped each other's processors wait for each
other, and a CPU that has dropped the processor of a monitor waits for the monitor. -/
theorem scans_never_return :
    (pair.Start ∧ Fair (fun k => (turns true k).1) ∧
      ∀ c, ∀ j ≥ 4, ((pair.run (turns true) j).ctl c).inScan = true) ∧
    (monitorPair.Start ∧ Fair (fun k => (turns false k).1) ∧
      ∀ j ≥ 3, ((monitorPair.run (turns false) j).ctl false).inScan = true) := by
  refine ⟨⟨pair_start, turns_fair true, fun c j hj => ?_⟩,
    ⟨monitorPair_start, turns_fair false, fun j hj => ?_⟩⟩
  · have hstuck : (pair.run (turns true) 4).Stuck Set.univ := by
      intro c _
      cases c with
      | false => exact ⟨false, true, rfl, rfl, trivial⟩
      | true => exact ⟨false, false, rfl, rfl, trivial⟩
    obtain ⟨m, p, hctl, -⟩ :=
      circle_waits_forever (fun _ _ h => Option.some.inj h.symm) hstuck j hj c
      trivial
    rw [hctl]
    rfl
  · rw [(monitor_never_stops j hj).1]
    rfl

end Cpus

end Corey.Kern
