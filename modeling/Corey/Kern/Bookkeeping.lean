import Corey.Kern.RootTree
import Corey.Kern.ShareSet

/-!
What the kernel knows of its processors.

Which processor runs on a CPU is recorded in `processors`, in the processor and in the list of
its address tree, and whether a CPU has a processor at all in `processor_free`. The runs here are
those of the operations on processors: making one, giving it a share, vectoring it, halting it at
once or through the trap of its own CPU, and collecting it.
-/

namespace Corey.Kern

open Function Corey.Comp Corey.Mem

variable {s s' t u : Machine} {ps a : Kobj} {α : Type} {f : Processor → Processor} {p : Kobject}
  {pid : ℕ}

/-! ### The operations -/

inductive PsCall
  | alloc (pid : ℕ)
  | addShare (ps sh : Kobj)
  | vector (ps : Kobj) (uc : UContext)
  | halt (ps : Kobj)
  | trapHalt
  | gc (ps : Kobj)

/-- The trap `T_HALT`, which a CPU is sent to halt the processor it runs. -/
def haltTrap : KM Unit := do
  let ps ← theProcessor
  let p ← derefAs .processor ps
  if p.ps.psHalt then do
    let _ ← processorHalt ps
    pure ()

def PsCall.body : PsCall → KM Unit
  | .alloc pid => do
    let _ ← processorAlloc pid
    pure ()
  | .addShare ps sh => processorAddShare ps sh
  | .vector ps uc => processorVector ps uc
  | .halt ps => do
    let _ ← processorHalt ps
    pure ()
  | .trapHalt => haltTrap
  | .gc ps => do
    processorGcCb ps
    kobjectFree ps

structure PsOp where
  cpu : ℕ
  call : PsCall

structure NoProcessors (s : Machine) : Prop where
  live : ∀ p, (s.obj p).live = true → p < s.born ∧ (s.obj p).koType ≠ .processor
  processors : ∀ pid, s.processors pid = none
  free : ∀ pid, s.processorFree pid = true
  lists : ∀ a, (s.obj a).tree.atPsList = []

def processing : System Machine PsOp where
  init := NoProcessors
  step op s := if op.cpu < s.ncpu then op.call.body.next (s.at op.cpu) else none

/-! ### The invariant -/

def Kobject.IsProcessor (o : Kobject) : Prop := o.live = true ∧ o.koType = .processor
  deriving Decidable

def Kobject.RunsIn (o : Kobject) (a : Kobj) : Prop :=
  o.IsProcessor ∧ o.ps.psRunning = true ∧ o.ps.psAt = some a
  deriving Decidable

structure Bookkept (s : Machine) : Prop where
  live : ∀ p, (s.obj p).live = true → p < s.born
  processors : ∀ pid ps, s.processors pid = some ps ↔
    (s.obj ps).IsProcessor ∧ (s.obj ps).ps.psRunning = true ∧ (s.obj ps).ps.psPid = pid
  lists : ∀ a, (s.obj a).live = true → (s.obj a).koType = .addressTree → ∀ ps,
    (s.obj a).tree.atPsList.count ps = if (s.obj ps).RunsIn a then 1 else 0
  one : ∀ p q, (s.obj p).IsProcessor → (s.obj q).IsProcessor →
    (s.obj p).ps.psPid = (s.obj q).ps.psPid → p = q
  free : ∀ pid, s.processorFree pid = false ↔
    ∃ ps, (s.obj ps).IsProcessor ∧ (s.obj ps).ps.psPid = pid

lemma NoProcessors.bookkept (h : NoProcessors s) : Bookkept s where
  live p hp := (h.live p hp).1
  processors pid ps := by
    rw [h.processors]
    exact ⟨nofun, fun hp => absurd hp.1.2 (h.live ps hp.1.1).2⟩
  lists a _ _ ps := by
    have hnot : ¬ (s.obj ps).RunsIn a := fun hp => (h.live ps hp.1.1).2 hp.1.2
    rw [h.lists, if_neg hnot, List.count_nil]
  one p _ hp _ _ := absurd hp.2 (h.live p hp.1).2
  free pid := by
    rw [h.free]
    exact ⟨nofun, fun ⟨ps, hp, _⟩ => absurd hp.2 (h.live ps hp.1).2⟩

/-! ### What leaves all of it alone -/

def Kobject.duty (o : Kobject) :
    (Bool × ℕ × KobjType) × ℕ × Bool × Option Kobj × List Kobj :=
  (o.head, o.ps.psPid, o.ps.psRunning, o.ps.psAt, o.tree.atPsList)

abbrev SameDuty : Machine → Machine → Prop := Same Kobject.duty Machine.sched

section
variable (h : s'.sched = s.sched)
include h

lemma sched_processors : s'.processors = s.processors := congrArg Prod.fst h

lemma sched_processorFree : s'.processorFree = s.processorFree := congrArg (fun x => x.2.1) h

lemma sched_born : s'.born = s.born := congrArg (fun x => x.2.2.2) h

end

namespace SameDuty

lemma of_looks (h : Looks s s') : SameDuty s s' :=
  ⟨(h.map Kobject.duty id).obj, congrArg (·.2.2) h.rest⟩

lemma of_spares (h : Spares s s') : SameDuty s s' where
  obj p := by
    rw [← (h.obj p).rest, Kobject.duty, Kobject.duty, (h.obj p).ps, ← (h.obj p).tree]
    rfl
  rest := by rw [← h.rest]; rfl

section

variable (h : SameDuty s s') (p : Kobj)
include h

lemma kin : Kin (s.obj p) (s'.obj p) := .of_head (congrArg (·.1) (h.obj p))

lemma psPid : (s'.obj p).ps.psPid = (s.obj p).ps.psPid := congrArg (·.2.1) (h.obj p)

lemma psRunning : (s'.obj p).ps.psRunning = (s.obj p).ps.psRunning :=
  congrArg (·.2.2.1) (h.obj p)

lemma psAt : (s'.obj p).ps.psAt = (s.obj p).ps.psAt := congrArg (·.2.2.2.1) (h.obj p)

lemma atPsList : (s'.obj p).tree.atPsList = (s.obj p).tree.atPsList :=
  congrArg (·.2.2.2.2) (h.obj p)

end

lemma isProcessor (h : SameDuty s s') (p : Kobj) :
    (s'.obj p).IsProcessor ↔ (s.obj p).IsProcessor := by
  rw [Kobject.IsProcessor, Kobject.IsProcessor, (h.kin p).1, (h.kin p).2.2]

lemma runsIn (h : SameDuty s s') (p a : Kobj) : (s'.obj p).RunsIn a ↔ (s.obj p).RunsIn a := by
  rw [Kobject.RunsIn, Kobject.RunsIn, h.isProcessor, h.psRunning, h.psAt]

lemma bookkept (h : SameDuty s s') (hs : Bookkept s) : Bookkept s' where
  live p hp := sched_born h.rest ▸ hs.live p ((h.kin p).1 ▸ hp)
  processors pid p := by
    rw [sched_processors h.rest, h.isProcessor, h.psRunning, h.psPid]
    exact hs.processors pid p
  lists a hl ht p := by
    rw [h.atPsList, hs.lists a ((h.kin a).1 ▸ hl) ((h.kin a).2.2 ▸ ht) p]
    exact (if_congr (h.runsIn p a) rfl rfl).symm
  one p q hp hq hpq := hs.one p q ((h.isProcessor p).mp hp) ((h.isProcessor q).mp hq)
    (by rw [← h.psPid, ← h.psPid, hpq])
  free pid := by
    simp only [sched_processorFree h.rest, h.isProcessor, h.psPid]
    exact hs.free pid

end SameDuty

/-! ### Halting and starting -/

lemma modProcessor_tree (b : Kobj) :
    ((s.modObj ps fun o => { o with ps := f o.ps }).obj b).tree = (s.obj b).tree :=
  modObj_eq (g := Kobject.tree) rfl b

/-- The list of the tree `a` has changed. -/
structure Relists (a : Kobj) (l : List Kobj → List Kobj) (s s' : Machine) : Prop where
  kin : ∀ p, Kin (s.obj p) (s'.obj p)
  sched : s'.sched = s.sched
  ps : ∀ p, (s'.obj p).ps = (s.obj p).ps
  atPsList : ∀ b, (s'.obj b).tree.atPsList =
    if b = a then l (s.obj a).tree.atPsList else (s.obj b).tree.atPsList

lemma Relists.modTree (a : Kobj) (l : List Kobj → List Kobj) (s : Machine) :
    Relists a l s (s.modObj a fun o => { o with tree := { o.tree with
      atPsList := l o.tree.atPsList } }) := by
  refine ⟨fun p => kin_modObj a p (kin_refl _), rfl, modObj_eq (g := Kobject.ps) rfl, fun b => ?_⟩
  by_cases hb : b = a
  · rw [if_pos hb, hb, modObj_self]
  · rw [if_neg hb, modObj_of_ne hb]

/-- Only the processor `ps` begins or ceases to run. -/
structure Switches (ps : Kobj) (s s' : Machine) : Prop where
  kin : ∀ p, Kin (s.obj p) (s'.obj p)
  rest : s'.processorFree = s.processorFree ∧ s'.born = s.born
  psPid : ∀ p, (s'.obj p).ps.psPid = (s.obj p).ps.psPid
  other : ∀ p ≠ ps, (s'.obj p).ps.psRunning = (s.obj p).ps.psRunning ∧
    (s'.obj p).ps.psAt = (s.obj p).ps.psAt

namespace Switches

lemma isProcessor (h : Switches ps s s') (p : Kobj) :
    (s'.obj p).IsProcessor ↔ (s.obj p).IsProcessor := by
  rw [Kobject.IsProcessor, Kobject.IsProcessor, (h.kin p).1, (h.kin p).2.2]

lemma runsIn (h : Switches ps s s') {p : Kobj} (hp : p ≠ ps) (b : Kobj) :
    (s'.obj p).RunsIn b ↔ (s.obj p).RunsIn b := by
  rw [Kobject.RunsIn, Kobject.RunsIn, h.isProcessor, (h.other p hp).1, (h.other p hp).2]

lemma bookkept (h : Switches ps s s') (hs : Bookkept s) (hps : (s.obj ps).IsProcessor)
    (hslot : s'.processors = update s.processors (s.obj ps).ps.psPid
      (if (s'.obj ps).ps.psRunning then some ps else none))
    (hlists : ∀ b, (s.obj b).live = true → (s.obj b).koType = .addressTree →
      (∀ p ≠ ps, (s'.obj b).tree.atPsList.count p = (s.obj b).tree.atPsList.count p) ∧
        (s'.obj b).tree.atPsList.count ps = if (s'.obj ps).RunsIn b then 1 else 0) :
    Bookkept s' where
  live p hp := h.rest.2 ▸ hs.live p ((h.kin p).1 ▸ hp)
  processors pid p := by
    rw [hslot, h.psPid, h.isProcessor]
    by_cases hp : p = ps
    · subst hp
      by_cases hpd : pid = (s.obj p).ps.psPid
      · rw [hpd, update_self]
        cases (s'.obj p).ps.psRunning <;> simp [hps]
      · rw [update_of_ne hpd, hs.processors]
        exact iff_of_false (fun hr => hpd hr.2.2.symm) fun hr => hpd hr.2.2.symm
    · rw [(h.other p hp).1, ← hs.processors]
      by_cases hpd : pid = (s.obj ps).ps.psPid
      · -- the slot of `ps` is for nobody else
        have hno : s.processors pid ≠ some p := fun he => by
          obtain ⟨hproc, -, hpid⟩ := (hs.processors pid p).mp he
          exact hp (hs.one p ps hproc hps (hpid.trans hpd))
        rw [hpd] at hno ⊢
        rw [update_self]
        refine iff_of_false (fun he => ?_) hno
        split_ifs at he
        exact hp (Option.some.inj he).symm
      · rw [update_of_ne hpd]
  lists b hl ht p := by
    obtain ⟨hothers, hself⟩ := hlists b ((h.kin b).1 ▸ hl) ((h.kin b).2.2 ▸ ht)
    by_cases hp : p = ps
    · rw [hp, hself]
    · rw [hothers p hp, hs.lists b ((h.kin b).1 ▸ hl) ((h.kin b).2.2 ▸ ht) p]
      exact (if_congr (h.runsIn hp b) rfl rfl).symm
  one p q hp hq hpq := hs.one p q ((h.isProcessor p).mp hp) ((h.isProcessor q).mp hq)
    (by rw [← h.psPid, ← h.psPid, hpq])
  free pid := by
    simp only [h.rest.1, h.isProcessor, h.psPid]
    exact hs.free pid

end Switches

/-- The processor `ps` of this CPU no longer runs in `a`. -/
structure Halts (ps a : Kobj) (s s' : Machine) : Prop extends Switches ps s s' where
  sched : s.processors s.mem.cpu = some ps
  was : (s.obj ps).ps.psAt = some a
  processors : s'.processors = update s.processors (s.obj ps).ps.psPid none
  idle : (s'.obj ps).ps.psRunning = false
  atPsList : ∀ b, (s'.obj b).tree.atPsList =
    if b = a then (s.obj a).tree.atPsList.erase ps else (s.obj b).tree.atPsList

lemma Halts.bookkept (h : Halts ps a s s') (hs : Bookkept s) : Bookkept s' := by
  obtain ⟨hps, hrun, hpid⟩ := (hs.processors _ ps).mp h.sched
  have hidle : ∀ b, ¬ (s'.obj ps).RunsIn b := fun b hr => by
    rw [Kobject.RunsIn, h.idle] at hr
    exact absurd hr.2.1 Bool.false_ne_true
  refine h.toSwitches.bookkept hs hps (by rw [h.processors, h.idle]; rfl) fun b hl ht => ?_
  have hcount := hs.lists b hl ht ps
  rw [h.atPsList, if_neg (hidle b)]
  by_cases hb : b = a
  · subst hb
    rw [if_pos rfl, List.count_erase_self, hcount, if_pos ⟨hps, hrun, h.was⟩]
    exact ⟨fun p hp => List.count_erase_of_ne hp, rfl⟩
  · have hnot : ¬ (s.obj ps).RunsIn b := fun hr => hb (Option.some.inj (hr.2.2.symm.trans h.was))
    rw [if_neg hb, hcount, if_neg hnot]
    exact ⟨fun _ _ => rfl, rfl⟩

/-- The idle processor `ps` has been started in `a`. -/
structure StartsIn (ps a : Kobj) (s s' : Machine) : Prop extends Switches ps s s' where
  idle : (s.obj ps).IsProcessor ∧ (s.obj ps).ps.psRunning = false
  processors : s'.processors = update s.processors (s.obj ps).ps.psPid (some ps)
  runs : (s'.obj ps).ps.psRunning = true ∧ (s'.obj ps).ps.psAt = some a
  atPsList : ∀ b, (s'.obj b).tree.atPsList =
    if b = a then ps :: (s.obj a).tree.atPsList else (s.obj b).tree.atPsList

lemma StartsIn.bookkept (h : StartsIn ps a s s') (hs : Bookkept s) : Bookkept s' := by
  have hps : (s'.obj ps).IsProcessor := (h.isProcessor ps).mpr h.idle.1
  have hwas : ∀ b, ¬ (s.obj ps).RunsIn b := fun b hr => by
    rw [Kobject.RunsIn, h.idle.2] at hr
    exact absurd hr.2.1 Bool.false_ne_true
  refine h.toSwitches.bookkept hs h.idle.1 (by rw [h.processors, h.runs.1]; rfl) fun b hl ht => ?_
  have hcount := hs.lists b hl ht ps
  rw [if_neg (hwas b)] at hcount
  rw [h.atPsList]
  by_cases hb : b = a
  · subst hb
    rw [if_pos rfl, List.count_cons_self, hcount, if_pos ⟨hps, h.runs⟩]
    exact ⟨fun p hp => List.count_cons_of_ne (Ne.symm hp), rfl⟩
  · have hnot : ¬ (s'.obj ps).RunsIn b := fun hr =>
      hb (Option.some.inj (hr.2.2.symm.trans h.runs.2))
    rw [if_neg hb, hcount, if_neg hnot]
    exact ⟨fun _ _ => rfl, rfl⟩

/-! ### The functions that leave all of it alone -/

lemma onSharemap_duty (ps : Kobj) (m : MapM TreeId Kobj α) : Steps SameDuty (onSharemap ps m) :=
  .of_rel fun s _ =>
    have hforest : ∀ f, SameDuty s { s with forest := f } := fun _ => .of_objects rfl rfl
    (hforest _).trans (.modObj (f := fun o => { o with ps := { o.ps with psSharemap :=
      { o.ps.psSharemap with map := _ } } }) rfl rfl)

lemma sharemapClear_duty (ps : Kobj) : Steps SameDuty (sharemapClear noHalt ps) :=
  have hR : ∀ s s', Spares s s' → SameDuty s s' := fun _ _ => .of_spares
  .derefAs fun _ =>
    .seq (.forEach (fun _ => .seq
      (shareScopeChange_flushes (fun _ _ h => hR _ _ h.toSpares) (.halt _) _)
      ((kobjectDecref_spares _).mono hR)) _) <|
    .seq (onSharemap_duty _ _) <| .change fun _ => .modObj rfl rfl

lemma kobjectIncref_duty (ko : Kobj) : Steps SameDuty (kobjectIncref ko) :=
  .bind (deref_quiet ko) fun _ => .change fun _ => .modObj rfl rfl

lemma processorAddShare_duty (ps sh : Kobj) : Steps SameDuty (processorAddShare ps sh) :=
  .derefAs fun _ => .derefAs fun _ =>
    .ite (.raise _) (.seq (onSharemap_duty _ _) (kobjectIncref_duty _))

lemma SameDuty.after {m : KM α} (h : SameDuty s t) (hm : Steps SameDuty m) :
    m.Leaves (SameDuty s) t := Same.after h hm

/-! ### The operations -/

lemma processorHalt_spec (ps : Kobj) (s : Machine) :
    wp (processorHalt ps) (fun r s' => r = false ∧ SameDuty s s' ∨ r = true ∧ ∃ a, Halts ps a s s')
      .any s := by
  simp only [processorHalt, atDetach, wp_rules, wp_derefAs, wp_processorSched, wp_modTree,
    wp_modProcessor, implies_true, and_true]
  intro _ _
  refine ⟨fun _ => .inl ⟨trivial, .modObj rfl rfl⟩, ?_⟩
  intro hsched a ha _ _ _ _ _
  have hdetach := Relists.modTree a (fun l => l.erase ps) s
  generalize Machine.modObj a _ s = t at hdetach ⊢
  refine wp_post (Same.ok (.refl _) (sharemapClear_duty ps)) fun _ u (hu : SameDuty _ u) =>
    .inr ⟨trivial, a, ?_⟩
  have hps : ∀ p, (u.obj p).ps.psPid = (s.obj p).ps.psPid ∧ (p ≠ ps →
      (u.obj p).ps.psRunning = (s.obj p).ps.psRunning ∧ (u.obj p).ps.psAt = (s.obj p).ps.psAt) := by
    intro p
    rw [hu.psPid, hu.psRunning, hu.psAt, ← hdetach.ps]
    by_cases hp : p = ps
    · rw [hp, modObj_self]
      exact ⟨rfl, fun hno => absurd rfl hno⟩
    · rw [modObj_of_ne hp]
      exact ⟨rfl, fun _ => ⟨rfl, rfl⟩⟩
  have hsched' : u.sched = s.sched := hu.rest.trans hdetach.sched
  refine
    { kin := fun p => ((hdetach.kin p).trans (kin_modObj ps p (kin_refl _))).trans
        ((hu.kin p).trans (kin_modObj ps p (kin_refl _)))
      rest := ⟨(sched_processorFree hsched' :), (sched_born hsched' :)⟩
      psPid := fun p => ?_
      other := fun p hp => ?_
      sched := not_not.mp hsched
      was := ha
      processors := ?_
      idle := by rw [modObj_self]
      atPsList := fun b => ?_ }
  · rw [← (hps p).1]
    exact modObj_eq (g := fun o => o.ps.psPid) rfl p
  · rw [modObj_of_ne hp]
    exact (hps p).2 hp
  · exact congrArg (fun x : ℕ → Option Kobj => update x _ none) (sched_processors hsched')
  · rw [modProcessor_tree (f := fun x => { x with psRunning := false }), hu.atPsList,
      modProcessor_tree (f := fun x => { x with psAt := none, psAtref := {} }), hdetach.atPsList]

lemma processorHalt_bookkept (ps : Kobj) : Keeps Bookkept (processorHalt ps) :=
  .of_steps (R := fun s s' => Bookkept s → Bookkept s') ((processorHalt_errless ps).steps fun s =>
    wp_post (processorHalt_spec ps s) fun _ _ h hs => by
      rcases h with ⟨-, hd⟩ | ⟨-, a, ha⟩
      · exact hd.bookkept hs
      · exact ha.bookkept hs) fun _ _ => id

lemma processorStart_duty {uc : UContext} (h : (s.obj ps).IsProcessor)
    (hi : (s.obj ps).ps.psRunning = false) :
    wp (processorStart ps a uc) (fun _ s' => StartsIn ps a s s') .mayStop s := by
  simp only [processorStart, atAttach, wp_rules, wp_derefAs_any, wp_modTree, wp_modProcessor,
    wp_getObj]
  intro _ _
  have hattach := Relists.modTree a (fun l => ps :: l) s
  generalize Machine.modObj a _ s = t at hattach ⊢
  refine
    { kin := fun p => (hattach.kin p).trans ?_
      rest := ⟨(sched_processorFree hattach.sched :), (sched_born hattach.sched :)⟩
      psPid := fun p => ?_
      other := fun p hp => ?_
      idle := ⟨h, hi⟩
      processors := ?_
      runs := by rw [modObj_self]; exact ⟨rfl, rfl⟩
      atPsList := fun b => ?_ }
  · dsimp only
    exact kin_modObj ps p (kin_refl _)
  · rw [← hattach.ps]
    dsimp only
    exact modObj_eq (g := fun o => o.ps.psPid) rfl p
  · rw [modObj_of_ne hp, hattach.ps]
    exact ⟨rfl, rfl⟩
  · rw [modObj_self, ← hattach.ps, ← sched_processors hattach.sched]
    rfl
  · rw [← hattach.atPsList]
    dsimp only
    exact modObj_eq (g := fun o => o.tree.atPsList) rfl b

lemma processorVector_bookkept (ps : Kobj) (uc : UContext) :
    Keeps Bookkept (processorVector ps uc) := by
  have hR : ∀ s s', Looks s s' → SameDuty s s' := fun _ _ => .of_looks
  have hshare : ∀ r, Steps SameDuty (vectorShare ps r) := fun r =>
    .bind theProcessor_quiet fun _ => .bind ((processorCoObj_looks _ _ _).mono hR)
      fun _ => processorAddShare_duty _ _
  intro s hs
  simp only [processorVector, wp_bind, wp_derefAs_any, wp_ite, wp_raise]
  refine fun hl ht => ⟨fun _ => hs, fun hidle => ?_⟩
  refine wp_mono (SameDuty.after (.refl s) (.forEach hshare uc.shares)) (fun _ t ht' => ?_)
    fun _ t ht' => ht'.bookkept hs
  refine wp_mono (ht'.after ((processorCoObj_looks _ _ _).mono hR)) (fun a u hu => ?_)
    fun _ u hu => hu.bookkept hs
  rw [wp_require]
  refine ⟨fun _ => ?_, fun _ => trivial⟩
  refine wp_mono (processorStart_duty ((hu.isProcessor ps).mpr ⟨hl, ht⟩)
    (by rw [hu.psRunning]; exact Bool.eq_false_iff.mpr hidle))
    (fun _ v hv => ⟨hv.bookkept (hu.bookkept hs), trivial⟩) fun _ _ => False.elim

lemma Bookkept.born (hs : Bookkept s) (hfree : s.processorFree pid = true)
    (hp : p.IsProcessor) (hidle : p.ps.psRunning = false) (hpid : p.ps.psPid = pid)
    (hobj : s'.obj = update s.obj s.born p) (hsched : s'.sched =
      (s.processors, update s.processorFree pid false, s.ncpu, s.born + 1)) : Bookkept s' := by
  have hnew : s'.obj s.born = p := by rw [hobj, update_self]
  have hold : ∀ q ≠ s.born, s'.obj q = s.obj q := fun q hq => by rw [hobj, update_of_ne hq]
  have hdead : ¬ (s.obj s.born).live = true := fun hl => Nat.lt_irrefl _ (hs.live _ hl)
  have hnone : ∀ q, (s.obj q).IsProcessor → (s.obj q).ps.psPid ≠ pid := fun q hq heq => by
    have := (hs.free pid).mpr ⟨q, hq, heq⟩
    rw [hfree] at this
    exact absurd this (by decide)
  have hborn : s'.born = s.born + 1 := congrArg (fun x => x.2.2.2) hsched
  have hprocs : s'.processors = s.processors := congrArg Prod.fst hsched
  have hpf : s'.processorFree = update s.processorFree pid false := congrArg (fun x => x.2.1) hsched
  refine ⟨fun q hq => ?_, fun i q => ?_, fun b hl ht q => ?_, fun q r hq hr hqr => ?_, fun i => ?_⟩
  · rw [hborn]
    by_cases hqb : q = s.born
    · rw [hqb]
      exact Nat.lt_succ_self _
    · exact Nat.lt_succ_of_lt (hs.live q (by rwa [hold q hqb] at hq))
  · rw [hprocs, hs.processors]
    by_cases hqb : q = s.born
    · rw [hqb, hnew, hidle]
      exact ⟨fun h => absurd h.1.1 hdead, fun h => absurd h.2.1 Bool.false_ne_true⟩
    · rw [hold q hqb]
  · have hb : b ≠ s.born := fun hb => by
      rw [hb, hnew, hp.2] at ht
      cases ht
    rw [hold b hb] at hl ht ⊢
    rw [hs.lists b hl ht q]
    by_cases hqb : q = s.born
    · have hnot : ¬ p.RunsIn b := fun h => absurd (hidle.symm.trans h.2.1) Bool.false_ne_true
      rw [hqb, hnew, if_neg fun h => hdead h.1.1, if_neg hnot]
    · rw [hold q hqb]
  · by_cases hqb : q = s.born <;> by_cases hrb : r = s.born
    · rw [hqb, hrb]
    · rw [hqb, hnew, hold r hrb, hpid] at hqr
      rw [hold r hrb] at hr
      exact absurd hqr.symm (hnone r hr)
    · rw [hrb, hnew, hold q hqb, hpid] at hqr
      rw [hold q hqb] at hq
      exact absurd hqr (hnone q hq)
    · rw [hold q hqb] at hq hqr
      rw [hold r hrb] at hr hqr
      exact hs.one q r hq hr hqr
  · rw [hpf]
    by_cases hi : i = pid
    · rw [hi, update_self]
      exact ⟨fun _ => ⟨s.born, by rw [hnew]; exact ⟨hp, hpid⟩⟩, fun _ => rfl⟩
    · rw [update_of_ne hi, hs.free i]
      constructor
      · rintro ⟨q, hq, hqi⟩
        have hqb : q ≠ s.born := fun h => hdead (h ▸ hq.1)
        exact ⟨q, by rw [hold q hqb]; exact ⟨hq, hqi⟩⟩
      · rintro ⟨q, hq, hqi⟩
        by_cases hqb : q = s.born
        · rw [hqb, hnew, hpid] at hqi
          exact absurd hqi.symm hi
        · rw [hold q hqb] at hq hqi
          exact ⟨q, hq, hqi⟩

def newProcessor (id pid : ℕ) (page : Ppn) : Kobject where
  live := true
  koId := id
  koType := .processor
  koPid := pid
  page := page
  ps := { psPid := pid, psSharemap := sharemapInit pid }

lemma processorAlloc_bookkept (pid : ℕ) : Keeps Bookkept (processorAlloc pid) := by
  intro s hs
  simp only [processorAlloc, allocProcessor, wp_rules, wp_onErr, wp_modProcessor]
  refine ⟨fun _ => hs, fun _ => ⟨fun _ => hs, fun hbusy => ?_⟩⟩
  have hfree : s.processorFree pid = true := Bool.eq_true_of_not_eq_false hbusy
  refine wp_mono (kobjectAlloc_bears .processor pid _) (fun p t hp => ⟨?_, trivial⟩)
    fun _ t ht => ?_
  · obtain ⟨rfl, ⟨id, page, hobj⟩, -, -, hsched⟩ := hp
    refine hs.born (p := newProcessor id pid page) hfree ⟨rfl, rfl⟩ rfl rfl ?_ hsched
    simp only [Machine.modObj, hobj, update_self, update_idem]
    rfl
  · -- the flag is put back
    obtain ⟨f, rfl⟩ := ht
    simp only [freeProcessor, wp_rules]
    refine ⟨fun _ => ?_, fun _ => trivial⟩
    have hback : update (update s.processorFree pid false) pid true = s.processorFree := by
      rw [update_idem, ← hfree, update_eq_self]
    have hsame : ∀ x, x = s.processorFree →
        SameDuty s { s with processorFree := x, forest := f } := fun x hx => by
      subst hx
      exact .of_objects rfl rfl
    exact (hsame _ hback).bookkept hs

lemma Bookkept.gone (hs : Bookkept s) (hps : (s.obj ps).IsProcessor)
    (hidle : (s.obj ps).ps.psRunning = false) (hp : p.live = false)
    (hobj : s'.obj = update s.obj ps p) (hsched : s'.sched = (s.processors,
      update s.processorFree (s.obj ps).ps.psPid true, s.ncpu, s.born)) : Bookkept s' := by
  have hdead : ¬ (s'.obj ps).live = true := by
    rw [hobj, update_self, hp]
    exact Bool.false_ne_true
  have hold : ∀ q ≠ ps, s'.obj q = s.obj q := fun q hq => by rw [hobj, update_of_ne hq]
  have hborn : s'.born = s.born := congrArg (fun x => x.2.2.2) hsched
  have hprocs : s'.processors = s.processors := congrArg Prod.fst hsched
  have hpf : s'.processorFree = update s.processorFree (s.obj ps).ps.psPid true :=
    congrArg (fun x => x.2.1) hsched
  have hwas : ∀ {q : Kobj}, (s'.obj q).live = true → s'.obj q = s.obj q := fun {q} hq =>
    hold q fun h => hdead (h ▸ hq)
  refine ⟨fun q hq => ?_, fun i q => ?_, fun b hl ht q => ?_, fun q r hq hr hqr => ?_, fun i => ?_⟩
  · rw [hborn]
    exact hs.live q (hwas hq ▸ hq)
  · rw [hprocs, hs.processors]
    by_cases hq : q = ps
    · rw [hq, hidle]
      exact ⟨fun h => absurd h.2.1 Bool.false_ne_true, fun h => absurd h.1.1 hdead⟩
    · rw [hold q hq]
  · have hb := hwas hl
    rw [hb] at hl ht ⊢
    rw [hs.lists b hl ht q]
    by_cases hq : q = ps
    · have hnot : ¬ (s.obj ps).RunsIn b := fun h =>
        absurd (hidle.symm.trans h.2.1) Bool.false_ne_true
      rw [hq, if_neg hnot, if_neg fun h => hdead h.1.1]
    · rw [hold q hq]
  · have hq' := hwas hq.1
    have hr' := hwas hr.1
    rw [hq'] at hq hqr
    rw [hr'] at hr hqr
    exact hs.one q r hq hr hqr
  · rw [hpf]
    by_cases hi : i = (s.obj ps).ps.psPid
    · rw [hi, update_self]
      refine ⟨nofun, fun ⟨q, hq, hqi⟩ => ?_⟩
      have hne : q ≠ ps := fun h => hdead (h ▸ hq.1)
      rw [hold q hne] at hq hqi
      exact absurd (hs.one q ps hq hps hqi) hne
    · rw [update_of_ne hi, hs.free i]
      constructor
      · rintro ⟨q, hq, hqi⟩
        have hne : q ≠ ps := fun h => hi (by rw [← hqi, h])
        exact ⟨q, by rw [hold q hne]; exact ⟨hq, hqi⟩⟩
      · rintro ⟨q, hq, hqi⟩
        have hq' := hwas hq.1
        rw [hq'] at hq hqi
        exact ⟨q, hq, hqi⟩

lemma reap_bookkept (hs : Bookkept s) (hps : (s.obj ps).IsProcessor)
    (hidle : (s.obj ps).ps.psRunning = false) (hpid : (s.obj ps).ps.psPid = pid) :
    wp (do sharemapFree ps; freeProcessor pid) (fun _ t => ∀ f,
      Bookkept (Machine.bury ps { t with forest := f })) .any s := by
  rw [wp_bind]
  refine wp_post (Same.ok (.refl s) (onSharemap_duty _ _)) fun _ t (ht : SameDuty s t) => ?_
  simp only [freeProcessor, wp_rules]
  refine ⟨fun _ f => ?_, fun _ => trivial⟩
  refine (ht.bookkept hs).gone ((ht.isProcessor ps).mpr hps) (by rw [ht.psRunning, hidle])
    (p := { t.obj ps with live := false }) rfl rfl ?_
  rw [ht.psPid, hpid]
  rfl

lemma processorGcCb_reaps (hs : Bookkept s) (ps : Kobj) :
    wp (processorGcCb ps) (fun _ t => ∀ f, Bookkept (Machine.bury ps { t with forest := f }))
      .any s := by
  simp only [processorGcCb, wp_bind, wp_derefAs, implies_true, and_true]
  intro hl ht
  have hps : (s.obj ps).IsProcessor := ⟨hl, ht⟩
  by_cases hrun : (s.obj ps).ps.psRunning = true
  · rw [if_pos hrun, wp_bind]
    refine wp_post (processorHalt_spec ps s) fun r t hr => ?_
    rcases hr with ⟨rfl, -⟩ | ⟨rfl, a, ha⟩
    · exact trivial
    · rw [if_neg (by decide)]
      exact reap_bookkept (ha.bookkept hs) ((ha.isProcessor ps).mpr hps) ha.idle (ha.psPid ps)
  · rw [if_neg hrun]
    exact reap_bookkept hs hps (Bool.eq_false_iff.mpr hrun) rfl

lemma gc_bookkept (ps : Kobj) : Keeps Bookkept (PsCall.body (.gc ps)) := by
  have herr : Errless (PsCall.body (.gc ps)) :=
    .seq (processorGcCb_errless ps) (kobjectFree_errless ps)
  refine .of_steps (R := fun s s' => Bookkept s → Bookkept s')
    (herr.steps fun s => ?_) fun _ _ => id
  by_cases hs : Bookkept s
  swap
  · exact wp_any_of fun _ _ h => absurd h hs
  simp only [PsCall.body, kobjectFree, wp_rules, wp_getObj, wp_onForest]
  exact wp_post (processorGcCb_reaps hs ps) fun _ t ht =>
    wp_any_of fun _ f _ => ht f

lemma haltTrap_bookkept : Keeps Bookkept haltTrap :=
  have hR : ∀ s s', Looks s s' → Bookkept s → Bookkept s' := fun _ _ h =>
    (SameDuty.of_looks h).bookkept
  .bind (.of_steps theProcessor_quiet hR) fun _ => .bind (.of_steps (derefAs_quiet _ _) hR) fun _ =>
    .ite (.bind (processorHalt_bookkept _) fun _ => .pure fun _ _ => trivial)
      (.pure fun _ _ => trivial)

lemma PsCall.body_bookkept (c : PsCall) : Keeps Bookkept c.body := by
  cases c with
  | alloc pid => exact .bind (processorAlloc_bookkept pid) fun _ => .pure fun _ _ => trivial
  | addShare ps sh =>
    exact .of_steps (processorAddShare_duty ps sh) fun _ _ h => h.bookkept
  | vector ps uc => exact processorVector_bookkept ps uc
  | halt ps => exact .bind (processorHalt_bookkept ps) fun _ => .pure fun _ _ => trivial
  | trapHalt => exact haltTrap_bookkept
  | gc ps => exact gc_bookkept ps

lemma bookkept_of_reachable (h : processing.Reachable s) : Bookkept s := by
  refine System.Reach.invariant (I := Bookkept) (fun _ => NoProcessors.bookkept) ?_ h
  intro s op s' hs _ hstep
  simp only [processing] at hstep
  split_ifs at hstep
  have hcpu : SameDuty s (s.at op.cpu) := .of_objects rfl rfl
  exact Gives.next (P := fun _ _ => True) (op.call.body_bookkept) (hcpu.bookkept hs) hstep

/-- **The records of processors agree** in every state between operations: a CPU has the processor
that runs with its id, a tree lists once each processor that runs in it and no other, no two
processors have one id, and an id is taken while a processor has it. -/
theorem processor_bookkeeping_consistent (h : processing.Reachable s) :
    (∀ pid ps, s.processors pid = some ps ↔
      (s.obj ps).IsProcessor ∧ (s.obj ps).ps.psRunning = true ∧ (s.obj ps).ps.psPid = pid) ∧
    (∀ a, (s.obj a).live = true → (s.obj a).koType = .addressTree → (s.obj a).tree.atPsList.Nodup ∧
        ∀ ps, ps ∈ (s.obj a).tree.atPsList ↔ (s.obj ps).RunsIn a) ∧
    (∀ p q, (s.obj p).IsProcessor → (s.obj q).IsProcessor →
      (s.obj p).ps.psPid = (s.obj q).ps.psPid → p = q) ∧
    ∀ pid, s.processorFree pid = false ↔
      ∃ ps, (s.obj ps).IsProcessor ∧ (s.obj ps).ps.psPid = pid := by
  have hs := bookkept_of_reachable h
  refine ⟨hs.processors, fun a hl ht => ⟨?_, fun ps => ?_⟩, hs.one, hs.free⟩
  · rw [List.nodup_iff_count_le_one]
    intro ps
    rw [hs.lists a hl ht ps]
    split_ifs <;> omega
  · rw [← List.count_pos_iff, hs.lists a hl ht ps]
    split_ifs with hr <;> simp [hr]

/-- A share with an address tree in it, and no processor. -/
def treeAndShare : Machine :=
  { bareMachine 8 2 0 with
    born := 2
    obj := fun p => if p = 0 then shareWith 1
      else if p = 1 then { live := true, koId := 2, koType := .addressTree } else {} }

/-- CPU 0 makes a processor for CPU 1, starts it in the tree, and tells it to halt. -/
def startAndHalt : List PsOp :=
  [⟨0, .alloc 1⟩, ⟨0, .addShare 2 0⟩, ⟨0, .vector 2 { ucAt := ⟨1, 2⟩ }⟩, ⟨0, .halt 2⟩]

lemma treeAndShare_noProcessors : NoProcessors treeAndShare where
  live p := by
    simp only [treeAndShare]
    split_ifs with h0 h1
    · exact fun _ => ⟨h0 ▸ Nat.zero_lt_two, nofun⟩
    · exact fun _ => ⟨h1 ▸ Nat.one_lt_two, nofun⟩
    · nofun
  processors _ := rfl
  free _ := rfl
  lists a := by
    simp only [treeAndShare]
    split_ifs <;> rfl

/-- The processor of CPU 1 has been told to halt and still runs. -/
theorem processor_bookkeeping_consistent_told :
    ∃ s, processing.Reachable s ∧ s.processors 1 = some 2 ∧ (s.obj 2).ps.psHalt = true ∧
      (s.obj 1).tree.atPsList = [2] ∧ s.processorFree 1 = false ∧
      ((∀ pid ps, s.processors pid = some ps ↔
        (s.obj ps).IsProcessor ∧ (s.obj ps).ps.psRunning = true ∧ (s.obj ps).ps.psPid = pid) ∧
      (∀ a, (s.obj a).live = true → (s.obj a).koType = .addressTree →
        (s.obj a).tree.atPsList.Nodup ∧ ∀ ps, ps ∈ (s.obj a).tree.atPsList ↔ (s.obj ps).RunsIn a) ∧
      (∀ p q, (s.obj p).IsProcessor → (s.obj q).IsProcessor →
        (s.obj p).ps.psPid = (s.obj q).ps.psPid → p = q) ∧
      ∀ pid, s.processorFree pid = false ↔
        ∃ ps, (s.obj ps).IsProcessor ∧ (s.obj ps).ps.psPid = pid) := by
  obtain ⟨s, hs, hrun, hhalt, hlist, hfree⟩ :
      ∃ s ∈ processing.run (fun _ _ => true) startAndHalt treeAndShare, s.processors 1 = some 2 ∧
        (s.obj 2).ps.psHalt = true ∧ (s.obj 1).tree.atPsList = [2] ∧ s.processorFree 1 = false := by
    decide +kernel
  have hreach : processing.Reachable s :=
    (System.Reach.start treeAndShare_noProcessors).run (fun _ _ _ => trivial) hs
  exact ⟨s, hreach, hrun, hhalt, hlist, hfree, processor_bookkeeping_consistent hreach⟩

end Corey.Kern
