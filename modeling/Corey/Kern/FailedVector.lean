import Corey.Kern.ShareSet

/-!
A call of `processor_vector` that fails (`kern/processor.c`).

The shares are added one by one before the address tree is looked up, and none of them is taken
away again when a later step fails. A failed call therefore leaves everything as it was exactly
if it has not come to the point where the first share is added.
-/

namespace Corey.Kern

open Corey.Comp Corey.Mem

variable {s s' t : Machine} {ps sh : Kobj} {uc : UContext}

/-! ### What a failed call must not change -/

/-- The shares a processor can name, the references to shares, and the processor's state. -/
structure Unchanged (ps : Kobj) (s s' : Machine) : Prop where
  sharemap : (s.sharemap ps).table.Same (s'.sharemap ps).table
  refs : ∀ p, (s.obj p).koType = .share → (s'.obj p).koRef = (s.obj p).koRef
  psAt : (s'.obj ps).ps.psAt = (s.obj ps).ps.psAt
  psRunning : (s'.obj ps).ps.psRunning = (s.obj ps).ps.psRunning

/-- A share of the caller that is looked up and can be added. -/
def AddsShare (ps : Kobj) (s : Machine) (r : SobjRef) : Prop :=
  ∃ sched sh t t', s.processors s.mem.cpu = some sched ∧
    processorCoObj sched r (some .share) s = (.ok sh, t) ∧
    processorAddShare ps sh t = (.ok (), t')

lemma Looks.unchanged (h : Looks s s') : Unchanged ps s s' where
  sharemap := by rw [Machine.sharemap, Machine.sharemap, h.ps]; exact fun _ => Iff.rfl
  refs p _ := h.koRef p
  psAt := by rw [h.ps]
  psRunning := by rw [h.ps]

lemma Unchanged.after (h : Looks s t) (h' : Unchanged ps t s') : Unchanged ps s s' where
  sharemap := by
    have hmap : t.sharemap ps = s.sharemap ps := by rw [Machine.sharemap, h.ps, Machine.sharemap]
    exact hmap ▸ h'.sharemap
  refs p hp := (h'.refs p ((h.kin p).2.2.trans hp)).trans (h.koRef p)
  psAt := h'.psAt.trans (by rw [h.ps])
  psRunning := h'.psRunning.trans (by rw [h.ps])

/-! ### Adding a share -/

section

variable {r : Map Kobj × Forest TreeId}

lemma setSharemap_koRef (p : Kobj) : ((s.setSharemap ps r).obj p).koRef = (s.obj p).koRef :=
  modObj_eq (g := Kobject.koRef) rfl p

end

/-- No object loses a reference. -/
def RefsGrow (s s' : Machine) : Prop := ∀ p, (s.obj p).koRef ≤ (s'.obj p).koRef

lemma RefsGrow.trans (h : RefsGrow s t) (h' : RefsGrow t s') : RefsGrow s s' :=
  fun p => (h p).trans (h' p)

lemma Looks.refsGrow (h : Looks s s') : RefsGrow s s' := fun p => (h.koRef p).ge

lemma processorAddShare_spec (ps sh : Kobj) (s : Machine) :
    wp (processorAddShare ps sh)
      (fun _ s' => ((s.obj sh).koType = .share ∧ (s.obj sh).koRef < (s'.obj sh).koRef) ∧
        RefsGrow s s')
      (Exits.both fun s' => Unchanged ps s s' ∧ RefsGrow s s') s := by
  simp only [processorAddShare, sharemapAdd, kobjectIncref, wp_rules, wp_derefAs, wp_onSharemap,
    wp_deref, Exits.both, implies_true, and_true]
  intro _ htype _ _
  refine ⟨fun _ => ⟨(Looks.refl s).unchanged, (Looks.refl s).refsGrow⟩, fun _ => ?_⟩
  refine wp_mono (mapPut_lists (mapBack ps) _ sh _) (fun _ r _ _ => ?_) fun _ r hr => ?_
  · refine ⟨⟨htype, ?_⟩, fun p => ?_⟩
    · rw [modObj_self, setSharemap_koRef]
      exact Nat.lt_succ_self _
    · rw [incref_koRef, setSharemap_koRef]
      exact Nat.le_add_right _ _
  · exact ⟨⟨setSharemap_map ▸ hr, fun p _ => setSharemap_koRef p, setSharemap_psAt,
      modObj_eq (g := fun o => o.ps.psRunning) rfl ps⟩, fun p => (setSharemap_koRef p).ge⟩

lemma vectorShare_grows (ps : Kobj) (r : SobjRef) : Steps RefsGrow (vectorShare ps r) :=
  .bind theProcessor_quiet fun _ =>
    .bind ((processorCoObj_looks _ _ _).mono fun _ _ => Looks.refsGrow) fun _ =>
      .of_wp fun s => wp_mono (processorAddShare_spec ps _ s) (fun _ _ h => h.2) fun _ _ h => h.2

/-! ### The call -/

lemma processorStart_errless (ps a : Kobj) (uc : UContext) : Errless (processorStart ps a uc) :=
  .seq (.bind (derefAs_errless _ _) fun _ => .change _) <| .seq (.change _) <|
    .bind (.bind .state fun _ => .pure _) fun _ => .change _

lemma vectorTree_fails {I : Machine → Prop} (ps : Kobj) (uc : UContext)
    (hI : ∀ u, Looks t u → I u) :
    wp (do
      let a ← processorCoObj ps uc.ucAt (some .addressTree)
      require (uc.ucMode ≠ .vm)
      processorStart ps a uc) (fun _ _ => True) (.both I) t := by
  simp only [wp_rules]
  refine wp_mono ((Looks.refl t).after (processorCoObj_looks ps uc.ucAt _)) (fun a u _ => ?_)
    fun _ u hu => hI u hu
  exact ⟨fun _ => wp_mono (processorStart_errless ps a uc).wp_mayStop (fun _ _ => id)
    (fun _ _ => False.elim), fun _ => trivial⟩

lemma vectorShare_fails {r : SobjRef} (h : ¬ AddsShare ps s r) :
    wp (vectorShare ps r) (fun _ _ => False) (.both (Unchanged ps s)) s := by
  simp only [vectorShare, theProcessor, wp_rules, wp_processorSched]
  refine ⟨fun sched hsched => ?_, fun _ => trivial⟩
  have hlook := (Looks.refl s).after (processorCoObj_looks sched r (some .share))
  simp only [wp] at hlook ⊢
  rcases hco : processorCoObj sched r (some .share) s with ⟨sh | _ | _, t⟩ <;> rw [hco] at hlook
  · have hadd := processorAddShare_spec ps sh t
    simp only [wp] at hadd ⊢
    rcases hrun : processorAddShare ps sh t with ⟨_ | _ | _, t'⟩ <;> rw [hrun] at hadd
    · exact h ⟨sched, sh, t, t', hsched, hco, hrun⟩
    · exact hadd.1.after hlook
    · trivial
  · exact hlook.unchanged
  · trivial

lemma processorVector_unchanged (h : ∀ r ∈ uc.shares.head?, ¬ AddsShare ps s r) :
    wp (processorVector ps uc) (fun _ _ => True) (.both (Unchanged ps s)) s := by
  simp only [processorVector, wp_rules, wp_derefAs_any]
  refine fun _ _ => ⟨fun _ => (Looks.refl s).unchanged, fun _ => ?_⟩
  cases hl : uc.shares with
  | nil =>
    have htree := vectorTree_fails ps uc fun u (hu : Looks s u) =>
      (hu.unchanged : Unchanged ps s u)
    simpa only [forEach, wp_pure, wp_bind, wp_require] using htree
  | cons r l =>
    simp only [forEach, wp_bind]
    exact wp_mono (vectorShare_fails (h r (by rw [hl]; rfl))) (fun _ _ => False.elim) fun _ _ => id

lemma vectorShare_adds {sched sh : Kobj} {r : SobjRef} {t t' : Machine}
    (hsched : s.processors s.mem.cpu = some sched)
    (hco : processorCoObj sched r (some .share) s = (.ok sh, t))
    (hadd : processorAddShare ps sh t = (.ok (), t')) : vectorShare ps r s = (.ok (), t') := by
  rw [vectorShare, bind_of_ok (show theProcessor s = (.ok sched, s) from ?_), bind_of_ok hco, hadd]
  show need .gone (s.processors s.mem.cpu) s = _
  rw [hsched]
  rfl

lemma processorVector_refers {r : SobjRef} (hr : r ∈ uc.shares.head?)
    (hidle : (s.obj ps).ps.psRunning = false) (h : AddsShare ps s r) :
    wp (processorVector ps uc) (fun _ _ => True) (.both fun s' => ∃ p,
      (s.obj p).koType = .share ∧ (s.obj p).koRef < (s'.obj p).koRef) s := by
  obtain ⟨sched, sh, t, t', hsched, hco, hadd⟩ := h
  have hlook := wp_ok ((Looks.refl s).after (processorCoObj_looks sched r (some .share))) hco
  obtain ⟨⟨htype, hlt⟩, -⟩ := wp_ok (processorAddShare_spec ps sh t) hadd
  have hgrow : ∀ u, RefsGrow t' u → ∃ p, (s.obj p).koType = .share ∧
      (s.obj p).koRef < (u.obj p).koRef := fun u hu =>
    ⟨sh, (hlook.kin sh).2.2.symm.trans htype, by
      rw [← hlook.koRef sh]
      exact hlt.trans_le (hu sh)⟩
  simp only [processorVector, wp_rules, wp_derefAs_any, hidle]
  refine fun _ _ => ⟨by simp, fun _ => ?_⟩
  cases hl : uc.shares with
  | nil => simp [hl] at hr
  | cons r' l =>
    obtain rfl : r' = r := by simpa [hl] using hr
    simp only [forEach, wp_bind]
    refine wp_of_ok (vectorShare_adds hsched hco hadd) ?_
    have hrest := (Steps.forEach (vectorShare_grows ps) l).wp_keeps (I := RefsGrow t')
      (fun _ _ hR hI => hI.trans hR) fun _ => Nat.le_refl _
    refine wp_mono hrest (fun _ u hu => ?_) fun _ u hu => hgrow u hu
    have htree := vectorTree_fails ps uc fun v hv => hgrow v (hu.trans (Looks.refsGrow hv))
    simpa only [wp_bind, wp_require] using htree

/-- **A failed `processor_vector` changes nothing** exactly if the first of the shares it is given
has not been added. -/
theorem failed_vector_unchanged_iff {uc : UContext} {e : Errno}
    (hidle : (s.obj ps).ps.psRunning = false) (hrun : processorVector ps uc s = (.err e, s')) :
    Unchanged ps s s' ↔ ∀ r ∈ uc.shares.head?, ¬ AddsShare ps s r := by
  constructor
  · intro h r hr hadds
    obtain ⟨p, htype, hlt⟩ := wp_err (processorVector_refers hr hidle hadds) hrun
    exact absurd (h.refs p htype) hlt.ne'
  · exact fun h => wp_err (processorVector_unchanged h) hrun

/-- A processor that has been allocated and does not run yet. -/
def idleRun : List Event := [⟨0, .syscall (.processorAlloc 1 1)⟩]

/-- The boot share, with an address tree that is there or not. -/
def bootContext (tree : ℕ) : UContext := { ucAt := ⟨1, tree⟩, ucShare := [⟨1, 1⟩] }

/-- The first share is not there, the second is the boot share. -/
def lostContext : UContext := { ucAt := ⟨1, 3⟩, ucShare := [⟨1, 99⟩, ⟨1, 1⟩] }

theorem failed_vector_unchanged_lost :
    ∃ s s' e, kernel.Reachable s ∧ (s.obj 3).ps.psRunning = false ∧
      processorVector 3 lostContext s = (.err e, s') ∧ Unchanged 3 s s' := by
  obtain ⟨s, hs, hidle, hlost, hfailed⟩ := reachable_of_bootRun 40 2 idleRun
    (P := fun s => (s.obj 3).ps.psRunning = false ∧ (vectorShare 3 ⟨1, 99⟩).result s = none ∧
      ((processorVector 3 lostContext).failed s).isSome) (by decide +kernel)
  obtain ⟨s', hs'⟩ := Option.isSome_iff_exists.mp hfailed
  obtain ⟨e, herr⟩ := failed_eq_some.mp hs'
  refine ⟨s, s', e, hs, hidle, herr, (failed_vector_unchanged_iff hidle herr).mpr ?_⟩
  rintro _ ⟨⟩ ⟨sched, sh, t, t', hsched, hco, hadd⟩
  rw [result_eq_some.mpr (vectorShare_adds hsched hco hadd)] at hlost
  cases hlost

/-- What a failed call has left of the boot share, and what becomes of a call with the right tree
before it and after it. -/
def LeavesShare (s s' : Machine) : Prop :=
  (s.obj 3).ps.psRunning = false ∧ (s.sharemap 3).table.toList = [] ∧
    (s'.sharemap 3).table.toList = [(1, 0)] ∧ (s.obj 0).koType = .share ∧
    (s'.obj 0).koRef = (s.obj 0).koRef + 1 ∧
    ((processorVector 3 (bootContext 3)).result s).isSome = true ∧
    ((processorVector 3 (bootContext 3)).failed s').isSome = true
  deriving Decidable

/-- **The share stays** when the address tree cannot be looked up: it has one more reference, and
a second call with the right tree fails, which would have succeeded as the first one. -/
theorem failed_vector_keeps_share :
    ∃ s s' e, kernel.Reachable s ∧ (s.obj 3).ps.psRunning = false ∧
      processorVector 3 (bootContext 99) s = (.err e, s') ∧
      ¬ (s.sharemap 3).table.Same (s'.sharemap 3).table ∧
      (s.obj 0).koType = .share ∧ (s'.obj 0).koRef = (s.obj 0).koRef + 1 ∧
      (∃ u, processorVector 3 (bootContext 3) s = (.ok (), u)) ∧
      ∃ e' u, processorVector 3 (bootContext 3) s' = (.err e', u) := by
  obtain ⟨s, hs, s', hs', hidle, hempty, hkept, htype, href, hgood, hagain⟩ :=
    reachable_of_bootRun 40 2 idleRun (P := fun s =>
      ∃ s' ∈ (processorVector 3 (bootContext 99)).failed s, LeavesShare s s') (by decide +kernel)
  obtain ⟨e, herr⟩ := failed_eq_some.mp hs'
  obtain ⟨⟨_, u⟩, hu⟩ := Option.isSome_iff_exists.mp hgood
  obtain ⟨v, hv⟩ := Option.isSome_iff_exists.mp hagain
  obtain ⟨e', herr'⟩ := failed_eq_some.mp hv
  refine ⟨s, s', e, hs, hidle, herr, fun hsame => ?_, htype, href, ⟨u, result_eq_some.mp hu⟩,
    e', v, herr'⟩
  have hmem := (hsame (1, 0)).mp (hkept ▸ List.mem_singleton_self _)
  rw [hempty] at hmem
  exact nomatch hmem

end Corey.Kern
