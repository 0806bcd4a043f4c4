import Corey.Kern.Doings

/-!
One step of the collector, and of the kernel.

What a step of the kernel does comes down to the changes listed before and, in a collection, to
the death of one object. To halt a processor raises no error, nor does it to free a page.
-/

namespace Corey.Kern

open Corey.Comp Corey.Mem
open Corey.Mem.Forest (ForestM givePage)
open Relation (ReflTransGen)

variable {ι : Type} {ko : Kobj} {s : Machine}

/-! ### Freeing pages raises no error -/

lemma pageFree_errless (p : Ppn) : Errless (pageFree p) :=
  .bind .state fun _ => .ite (.pure _) <| .bind (.need _ _) fun _ => .seq (.require _) <|
    .seq (.change _) (.change _)

lemma pagetreeDecref_errless (p : Ppn) : Errless (pagetreeDecref p) :=
  .seq (.change _) <| .bind .state fun _ =>
    .ite (.seq (.require _) (pageFree_errless p)) (.pure _)

lemma pagetreeFreeEnt_errless (e : PagetreeEntry) : Errless (pagetreeFreeEnt e) := by
  rw [pagetreeFreeEnt]
  cases e.page with
  | none => exact .pure _
  | some p => exact pagetreeDecref_errless p

lemma pagetreeFreeSlot_errless : ∀ {l : ℕ} (x : Slot l), Errless (pagetreeFreeSlot x)
  | 0, .ent e => pagetreeFreeEnt_errless e
  | _ + 1, .null => .pure _
  | _ + 1, .block p f =>
    .seq (.loop (fun i => pagetreeFreeSlot_errless (f i)) _ _) (pageFree_errless p)

lemma free_errless [DecidableEq ι] (t : ι) : Errless (Forest.free t) :=
  .zoom <| .seq (.loop (fun _ => .bind .state fun _ => .seq (.zoom (pagetreeFreeEnt_errless _))
      (.zoom (.change _))) _ _)
    (.loop (fun _ => .bind .state fun _ => .seq (.zoom (pagetreeFreeSlot_errless _))
      (.zoom (.change _))) _ _)

lemma givePage_errless (p : Ppn) : Errless (givePage p : ForestM ι Unit) :=
  .seq (.zoom (pageFree_errless p)) (.change _)

/-! ### Nor do mappings and halting -/

lemma deref_errless (p : Kobj) : Errless (deref p) :=
  .bind (.bind .state fun _ => .pure _) fun _ => .ite (.pure _) (.halt _)

lemma derefAs_errless (t : KobjType) (p : Kobj) : Errless (derefAs t p) :=
  .bind (deref_errless p) fun _ => .ite (.pure _) (.halt _)

lemma processorSched_errless : Errless processorSched :=
  .bind (.bind .state fun _ => .pure _) fun _ => .bind .state fun _ => .pure _

lemma kobjectDecref_errless (ko : Kobj) : Errless (kobjectDecref ko) :=
  .bind (deref_errless ko) fun _ => .seq (.require _) <| .seq (.change _) <| .ite
    (.bind (.bind .state fun _ => .pure _) fun _ => .change _) (.pure _)

lemma getAm_errless (r : AmRef) : Errless (getAm r) :=
  .bind (derefAs_errless _ _) fun _ => .pure _

lemma amlGetList_errless (ko : Kobj) : Errless (amlGetList ko) :=
  .bind (deref_errless _) fun _ => .seq (.require _) (.pure _)

lemma amlRemove_errless (ko : Kobj) (r : AmRef) : Errless (amlRemove ko r) :=
  .bind (amlGetList_errless _) fun _ => .change _

lemma kobjCacheFlush_errless (a : Kobj) : Errless (kobjCacheFlush a) :=
  .bind (derefAs_errless _ _) fun _ => .ite (.seq (kobjectDecref_errless _) (.change _)) (.pure _)

lemma atTlbflushOthers_errless (a : Kobj) : Errless (atTlbflushOthers a) :=
  .bind (derefAs_errless _ _) fun _ => .ite
    (.forEach (fun _ => .bind (getAm_errless _) fun _ => .bind (derefAs_errless _ _) fun _ =>
      .require _) _) (.pure _)

lemma atInvalidateRange_errless (a : Kobj) (first last : ℕ) :
    Errless (atInvalidateRange a first last) :=
  .bind (derefAs_errless _ _) fun _ => .seq (.require _) <| .bind (.need _ _) fun _ =>
    .bind .state fun _ => .ite (.halt _) (.change _)

lemma atInvalidateAddrmap_errless (a : Kobj) (r : AmRef) : Errless (atInvalidateAddrmap a r) :=
  .seq (kobjCacheFlush_errless _) <| .bind (getAm_errless _) fun _ => .ite
    (.seq (atTlbflushOthers_errless _) <| .seq (atInvalidateRange_errless _ _ _) (.change _))
    (.pure _)

lemma amlLoop_errless (ko : Kobj) (sel : AddressMapping → Bool) : Errless (amlLoop ko sel) :=
  .bind (amlGetList_errless _) fun _ => .forEach (fun _ => .bind (getAm_errless _) fun _ =>
    .seq (.require _) <| .ite
      (.seq (amlRemove_errless _ _) (atInvalidateAddrmap_errless _ _)) (.pure _)) _

lemma atDetach_errless (a ps : Kobj) : Errless (atDetach a ps) :=
  .bind (derefAs_errless _ _) fun _ => .bind (derefAs_errless _ _) fun _ =>
    .seq (.require _) (.change _)

section

variable {haltPs : Kobj → KM Bool} (hh : ∀ p, Errless (haltPs p))

include hh in
lemma scopeCb_errless (ko : Kobj) (sh : ℕ) (ps : Kobj) : Errless (scopeCb haltPs ko sh ps) :=
  .bind (deref_errless _) fun o => by
    cases o.koType with
    | segment => exact .bind (derefAs_errless _ _) fun _ => amlLoop_errless _ _
    | addressTree =>
      exact .seq (kobjCacheFlush_errless _) <| .bind (derefAs_errless _ _) fun _ =>
        .ite (amlLoop_errless _ _) <| .bind (derefAs_errless _ _) fun _ =>
          .ite (.bind (hh _) fun _ => .pure _) (.pure _)
    | processor => exact .pure _
    | share => exact .pure _
    | device => exact .pure _

include hh in
lemma shareScopeChange_errless (sh ps : Kobj) : Errless (shareScopeChange haltPs sh ps) :=
  .bind (derefAs_errless _ _) fun _ =>
    .bind (.bind (derefAs_errless _ _) fun _ => .pure _) fun _ =>
      .forEach (fun _ => scopeCb_errless hh _ _ _) _

include hh in
lemma sharemapClear_errless (ps : Kobj) : Errless (sharemapClear haltPs ps) :=
  .bind (derefAs_errless _ _) fun _ => .seq (.forEach (fun _ =>
      .seq (shareScopeChange_errless hh _ _) (kobjectDecref_errless _)) _) <|
    .seq (.zoom (.bind .state fun _ => .zoom (free_errless _))) (.change _)

end

lemma processorHalt_errless (ps : Kobj) : Errless (processorHalt ps) :=
  .bind (derefAs_errless _ _) fun _ => .bind processorSched_errless fun _ => .ite
    (.seq (.change _) (.pure _)) <|
    .bind (.need _ _) fun _ => .seq (atDetach_errless _ _) <| .seq (.change _) <|
      .seq (sharemapClear_errless (fun _ => .halt _) _) <| .seq (.change _) <|
        .seq (.change _) (.pure _)

lemma processorGcCb_errless (ps : Kobj) : Errless (processorGcCb ps) :=
  have hrest : ∀ pid, Errless (do
      sharemapFree ps
      freeProcessor pid) := fun _ =>
    .seq (.zoom (.bind .state fun _ => .zoom (free_errless _))) <|
      .bind .state fun _ => .seq (.require _) (.change _)
  .bind (derefAs_errless _ _) fun _ => .ite
    (.bind (processorHalt_errless _) fun _ => .ite (.bind (.halt _) fun _ => hrest _) (hrest _))
    (hrest _)

lemma kobjectFree_errless (ko : Kobj) : Errless (kobjectFree ko) :=
  .bind (.bind .state fun _ => .pure _) fun _ => .seq (.zoom (givePage_errless _)) (.change _)

/-! ### The collector's step -/

/-- The object `kobject_gc_scan` comes to next on a CPU. -/
def Machine.nextGc (s : Machine) (cpu : ℕ) : Option Kobj := (s.koGcList cpu).head?

def Machine.popGc (cpu : ℕ) (s : Machine) : Machine :=
  { s with koGcList := Function.update s.koGcList cpu (s.koGcList cpu).tail }

def Machine.bury (ko : Kobj) (s : Machine) : Machine :=
  { Machine.modObj ko (fun o => { o with live := false }) s with
    freed := (ko, (s.obj ko).koRef) :: s.freed }

inductive GcRound (s : Machine) : Machine → Prop
  | idle (h : s.nextGc s.mem.cpu = none) : GcRound s s
  | kept {ko : Kobj} (h : s.nextGc s.mem.cpu = some ko) (hl : s.live ko = true)
      (hr : (s.obj ko).koRef ≠ 0) : GcRound s (s.popGc s.mem.cpu)
  | failed {ko : Kobj} {u : Machine} (h : s.nextGc s.mem.cpu = some ko) (hl : s.live ko = true)
      (hr : (s.obj ko).koRef = 0) (hcb : (gcCb ko).next (s.popGc s.mem.cpu) = some u) : GcRound s u
  | freed {ko : Kobj} {u : Machine} {f : Forest TreeId} (h : s.nextGc s.mem.cpu = some ko)
      (hl : s.live ko = true) (hr : (s.obj ko).koRef = 0)
      (hcb : (gcCb ko).next (s.popGc s.mem.cpu) = some u) :
      GcRound s (Machine.bury ko { u with forest := f })

lemma kobjectFree_ok {s' : Machine} (h : kobjectFree ko s = (.ok (), s')) :
    ∃ f, s' = Machine.bury ko { s with forest := f } := by
  have hwp : wp (kobjectFree ko) (fun _ t => ∃ f, t = Machine.bury ko { s with forest := f })
      .any s := by
    simp only [kobjectFree, wp_rules, wp_getObj, wp_onForest]
    exact wp_any_of fun _ f => ⟨f, rfl⟩
  exact wp_ok hwp h

lemma gcObject_round (h : s.nextGc s.mem.cpu = some ko) :
    (gcObject ko).Leaves (GcRound s) s := by
  simp only [gcObject, wp_rules, wp_deref, wp_archCpu]
  refine ⟨fun hl => ⟨fun hr => ?_, fun hr => .kept h hl hr⟩, fun _ => trivial⟩
  show wp (gcCb ko) _ _ (s.popGc s.mem.cpu)
  simp only [wp]
  rcases hg : gcCb ko (s.popGc s.mem.cpu) with ⟨⟨⟩ | e | _, u⟩
  · have hfree := kobjectFree_errless ko u
    rcases hf : kobjectFree ko u with ⟨⟨⟩ | e | _, t⟩ <;> simp only [hf] at hfree ⊢
    · obtain ⟨f, rfl⟩ := kobjectFree_ok hf
      exact .freed h hl hr (by simp [Comp.next, hg])
    · exact absurd rfl (hfree e)
  · exact .failed h hl hr (by simp [Comp.next, hg])
  · trivial

lemma kobjectGcScan_round {s' : Machine} (hn : kobjectGcScan.next s = some s') : GcRound s s' := by
  refine next_of_wp (I := GcRound s) ?_ hn
  simp only [kobjectGcScan, wp_rules, wp_archCpu]
  rcases hh : (s.koGcList s.mem.cpu).head? with _ | ko
  · exact .idle hh
  · exact gcObject_round hh

/-! ### The kernel's step -/

/-- What one step can be. -/
inductive Stepped (e : Event) (s s' : Machine) : Prop
  | act (hg : e.act ≠ .gc) (hs : e.act ≠ .scan)
      (h : ReflTransGen (Move {k | k ∈ e.act.kinds}) (s.at e.cpu) s')
  | scan (ha : e.act = .scan) (h : Scans (s.at e.cpu) s')
  | gc (ha : e.act = .gc) (h : GcRound (s.at e.cpu) s')

lemma Event.stepped {e : Event} {s' : Machine} (h : e.step s = some s') :
    e.cpu < s.ncpu ∧ Stepped e s s' := by
  simp only [Event.step] at h
  split_ifs at h with hc
  refine ⟨hc, ?_⟩
  by_cases hg : e.act = .gc
  · rw [hg] at h
    exact .gc hg (kobjectGcScan_round h)
  · by_cases hs : e.act = .scan
    · rw [hs] at h
      exact .scan hs (shareActionScan_scans h)
    · exact .act hg hs ((act_steps hg hs).of_next h)

/-- What booting does. -/
abbrev Building : Set Kind := {k | k = .act ∨ k = .ref ∨ k = .start ∨ ∃ t, k = .birth t}

lemma userBootstrap_acts {b : Watch} (h : b.ok 0) : Acts Building b userBootstrap := by
  have hb : ∀ t, .birth t ∈ Building := fun t => .inr (.inr (.inr ⟨t, rfl⟩))
  have ha : .act ∈ Building := .inl rfl
  have hr : .ref ∈ Building := .inr (.inl rfl)
  exact .bind (shareAlloc_acts (hb _) h _) fun _ => .bind (processorAlloc_acts (hb _) _) fun _ =>
    .seq (sharemapAdd_acts hr _ _) <| .seq (shareImportObj_acts hr _ _) <|
      .bind (atAlloc_acts (hb _) h _) fun _ => .seq (shareImportObj_acts hr _ _) <|
        .bind (idOf_acts _) fun _ => .bind (idOf_acts _) fun _ =>
          processorVector_acts ha hr (.inr (.inr (.inl rfl))) _ _

/-- A run of a machine with `k` pages, `ncpu` CPUs and a monitor, in which memory lasts. -/
def bootRun (k ncpu : ℕ) (test : Machine → Event → Bool) (l : List Event) : Option Machine :=
  ((bootMachine k ncpu 1).map (·.denying fun _ => false)).bind (kernel.run test l)

section

variable {P : Machine → Prop} [DecidablePred P] (k ncpu : ℕ) (l : List Event)

lemma reach_of_bootRun (test : Machine → Event → Bool) (ok : Machine → Event → Prop)
    (ht : ∀ s e, test s e = true → ok s e)
    (h : ncpu ≤ josNcpu ∧ (bootRun k ncpu test l).any (P ·) = true) :
    ∃ s, kernel.Reach ok s ∧ P s := by
  obtain ⟨hn, h⟩ := h
  obtain ⟨s, hs, hx⟩ := (Option.any_eq_true _ _).mp h
  obtain ⟨t, hb, hr⟩ := Option.bind_eq_some_iff.mp hs
  have hinit : kernel.init t := ⟨k, _, ncpu, 1, hn, hb⟩
  exact ⟨s, (System.Reach.start hinit).run ht hr, of_decide_eq_true hx⟩

lemma reachable_of_bootRun
    (h : ncpu ≤ josNcpu ∧ (bootRun k ncpu (fun _ _ => true) l).any (P ·) = true) :
    ∃ s, kernel.Reachable s ∧ P s :=
  reach_of_bootRun k ncpu l _ _ (fun _ _ _ => trivial) h

end

lemma boot_effects (h : kernel.init s) : ∃ k ncpu ndev, ncpu ≤ josNcpu ∧
    ReflTransGen (Effect Building) (bareMachine k ncpu ndev) s := by
  obtain ⟨k, d, ncpu, ndev, hn, hb⟩ := h
  refine ⟨k, ncpu, ndev, hn, ?_⟩
  obtain ⟨t, hbt, rfl⟩ := Option.map_eq_some_iff.mp hb
  obtain ⟨⟨u, t'⟩, hr, rfl⟩ := Option.map_eq_some_iff.mp hbt
  exact ((Tracks.steps fun _ _ _ => userBootstrap_acts trivial).of_ok (result_eq_some.mp hr)).tail
    (.quiet (.of_obj rfl rfl))

/-- The kernel, from some state on. -/
def kernelFrom (start : Machine) : System Machine Event where
  init s := s = start
  step e s := e.step s

lemma reachFrom_of_bootRun {B P : Machine → Prop} [DecidablePred B] [DecidablePred P]
    {G : Machine → Event → Prop} [∀ s e, Decidable (G s e)] (k ncpu : ℕ) (l : List Event)
    (h : ncpu ≤ josNcpu ∧ ((bootMachine k ncpu 1).map (·.denying fun _ => false)).any (fun t =>
      B t ∧ ((kernelFrom t).run (fun s e => G s e) l t).any (P ·) = true) = true) :
    ∃ start s, kernel.init start ∧ B start ∧ (kernelFrom start).Reach G s ∧ P s := by
  obtain ⟨hn, h⟩ := h
  obtain ⟨t, hb, ht⟩ := (Option.any_eq_true _ _).mp h
  obtain ⟨hB, hrun⟩ := of_decide_eq_true ht
  obtain ⟨s, hs, hP⟩ := (Option.any_eq_true _ _).mp hrun
  refine ⟨t, s, ⟨k, _, ncpu, 1, hn, hb⟩, hB, ?_, of_decide_eq_true hP⟩
  exact (System.Reach.start (S := kernelFrom t) rfl).run (fun _ _ => of_decide_eq_true) hs

end Corey.Kern
