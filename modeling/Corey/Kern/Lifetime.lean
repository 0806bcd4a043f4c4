import Corey.Kern.Collection

/-!
How long kernel objects live.

Neither the processor that runs in an address tree nor an action that waits on a list holds a
reference. What the kernel means to guarantee holds as long as the references that there are
are given up only while nothing depends on them.
-/

namespace Corey.Kern

open Function Corey.Comp Corey.Mem Machine
open Relation (ReflTransGen)

variable {K : Set Kind} {s s' t start : Machine} {f : Kobject → Kobject} {p ko a : Kobj} {e : Event}
  {out : Option Kobj}

/-! ### The objects of a machine -/

/-- Only what has been allocated is alive. -/
def Born (s : Machine) : Prop := ∀ p, s.live p = true → p < s.born

/-- No lookup cache of an address tree is filled. -/
def Plain (s : Machine) : Prop := Born s ∧ ∀ p, (s.obj p).tree.atObj.ref.object = 0

lemma Born.effect (hb : Born s) (h : Effect K s s') (hf : .fault ∉ K) : Born s' := by
  intro p hp
  obtain hk | ⟨rfl, hlt, -⟩ := h.kin hf p
  · exact (hb p (hk.1.symm.trans hp)).trans_le (h.born_le hf)
  · exact hlt

lemma Born.stays (hb : Born s) (h : Effect K s s') (hf : .fault ∉ K) (hp : s.live p = true) :
    s'.live p = true ∧ (s'.obj p).koType = (s.obj p).koType := by
  obtain hk | ⟨rfl, -⟩ := h.kin hf p
  · exact ⟨hk.1.trans hp, hk.2.2⟩
  · exact absurd (hb _ hp) (Nat.lt_irrefl _)

lemma Plain.effect (hs : Plain s) (h : Effect K s s') (hf : .fault ∉ K) : Plain s' := by
  refine ⟨hs.1.effect h hf, fun p => ?_⟩
  cases h.objStep hf p with
  | mild hm => exact hm.cache (hs.2 p)
  | birth _ _ _ ho => rw [ho]
  | incref _ ho | decref _ _ ho | start _ _ _ _ ho | unset _ _ _ ho =>
    rw [ho]
    exact hs.2 p

lemma Plain.permits (hs : Plain s) (h : Permits K s ko) :
    .drop ko ∈ K ∨ .dropShare ∈ K ∧ (s.obj ko).koType = .share :=
  h.imp_right fun h => h.resolve_right fun ⟨a, ha, _⟩ => ha (hs.2 a)

lemma plain_bare (k ncpu ndev : ℕ) : Plain (bareMachine k ncpu ndev) :=
  ⟨fun p hp => by simp [live, bareMachine] at hp, fun _ => rfl⟩

lemma bury_of_ne (h : p ≠ ko) : (s.bury ko).obj p = s.obj p := update_of_ne h _ _

lemma live_bury (h : (s.bury ko).live p = true) : p ≠ ko ∧ s.live p = true := by
  have hne : p ≠ ko := by
    rintro rfl
    simp [live, bury] at h
  exact ⟨hne, by rwa [live, bury_of_ne hne] at h⟩

lemma Plain.bury (hs : Plain s) (ko : Kobj) : Plain (s.bury ko) := by
  refine ⟨fun p hp => hs.1 p (live_bury hp).2, fun p => ?_⟩
  by_cases hp : p = ko
  · subst hp
    simpa [Machine.bury] using hs.2 p
  · rw [bury_of_ne hp]
    exact hs.2 p

/-! ### Counts -/

lemma Effect.koRef_zero (h : Effect K s s') (hf : .fault ∉ K) (hr : .ref ∉ K)
    (h0 : (s.obj p).koRef = 0) : (s'.obj p).koRef = 0 := by
  cases h.objStep hf p with
  | mild hm => exact hm.koRef.trans h0
  | birth _ _ _ ho => rw [ho]
  | incref hk => exact absurd hk hr
  | decref _ hne => exact absurd h0 hne
  | start _ _ _ _ ho | unset _ _ _ ho => rwa [ho]

lemma Effect.koRef_ne (h : Effect K s s') (hf : .fault ∉ K) (hp : p < s.born)
    (h0 : (s.obj p).koRef ≠ 0) (hd : Permits K s p → (s.obj p).koRef ≠ 1) :
    (s'.obj p).koRef ≠ 0 := by
  cases h.objStep hf p with
  | mild hm => rwa [hm.koRef]
  | birth _ hb => exact absurd hb hp.ne
  | incref _ ho =>
    rw [ho]
    exact Nat.succ_ne_zero _
  | decref hk _ ho =>
    have hne := hd hk
    rw [ho]
    dsimp only
    omega
  | start _ _ _ _ ho | unset _ _ _ ho => rwa [ho]

/-- Every object of the type is referred to. -/
def Machine.Held (t : KobjType) (s : Machine) : Prop :=
  ∀ p < s.born, s.live p = true → (s.obj p).koType = t → (s.obj p).koRef ≠ 0

instance (t : KobjType) (s : Machine) : Decidable (s.Held t) :=
  inferInstanceAs (Decidable (∀ p < s.born, _))

lemma Machine.Held.effect {t : KobjType} (hs : s.Held t) (hb : Born s) (h : Effect K s s')
    (hf : .fault ∉ K) (hk : .birth t ∉ K) (hd : ∀ p, Permits K s p → (s.obj p).koType ≠ t) :
    s'.Held t := by
  intro p _ hl ht
  obtain hkin | ⟨-, -, hbirth⟩ := h.kin hf p
  · have hp : s.live p = true := hkin.1.symm.trans hl
    have htype : (s.obj p).koType = t := hkin.2.2.symm.trans ht
    exact h.koRef_ne hf (hb p hp) (hs p (hb p hp) hp htype) fun hdrop => absurd htype (hd p hdrop)
  · exact absurd (ht ▸ hbirth) hk

/-! ### What a step gives up -/

/-- The object of the removal that `share_action_scan` is to complete. -/
def Event.removes (s : Machine) (e : Event) : Option Kobj :=
  match e.act with
  | .scan => s.nextDrop e.cpu
  | _ => none

/-- The object that `kobject_gc_scan` is to collect. -/
def Event.collects (s : Machine) (e : Event) : Option Kobj :=
  match e.act with
  | .gc => (s.nextGc e.cpu).filter fun ko => (s.obj ko).koRef = 0
  | _ => none

/-- References may be given up. -/
def GivesUp (K : Set Kind) : Prop := .halt ∈ K ∨ .dropShare ∈ K ∨ ∃ ko, .drop ko ∈ K

lemma Plain.givesUp (hs : Plain s) (h : Permits K s ko) : GivesUp K := by
  rcases hs.permits h with hk | ⟨hk, -⟩
  · exact .inr (.inr ⟨ko, hk⟩)
  · exact .inr (.inl hk)

lemma Act.kinds_spec {a : Act} (hf : .fault ∉ a.kinds) :
    .unset ∉ a.kinds ∧ (∀ ko, .drop ko ∉ a.kinds) ∧
      (GivesUp {k | k ∈ a.kinds} → .halt ∈ a.kinds) ∧
      (.halt ∈ a.kinds → .ref ∉ a.kinds ∧ .start ∉ a.kinds) ∧
      (.act ∈ a.kinds → .birth .share ∉ a.kinds) ∧
      (.start ∈ a.kinds → .birth .addressTree ∉ a.kinds) := by
  cases a with
  | syscall c | poll _ c => cases c <;> simp [Act.kinds, Syscall.kinds, GivesUp]
  | fault => simp [Act.kinds] at hf
  | _ => simp [Act.kinds, GivesUp]

lemma gcKinds_spec (o : Kobject) : .unset ∉ o.gcKinds ∧ .fault ∉ o.gcKinds ∧ .ref ∉ o.gcKinds ∧
    .start ∉ o.gcKinds ∧ .act ∉ o.gcKinds ∧ ∀ t, .birth t ∉ o.gcKinds := by
  simp [Kobject.gcKinds]

lemma gcKinds_givesUp {o : Kobject} (h : GivesUp o.gcKinds) :
    o.koType = .share ∨ o.koType = .processor := by
  rcases h with hk | hk | ⟨m, hk⟩
  · simpa [Kobject.gcKinds] using hk
  · simp [Kobject.gcKinds] at hk
  · obtain ⟨⟨⟩, -⟩ | ⟨-, -, -, ht⟩ := hk
    exact .inl ht

/-! ### Running processors -/

/-- A processor that runs, and the tree it runs in. -/
def Machine.RunsIn (s : Machine) (p a : Kobj) : Prop :=
  s.live p = true ∧ (s.obj p).koType = .processor ∧ (s.obj p).Runs a
  deriving Decidable

/-- The address tree is the one of some processor that runs. -/
def Machine.InUse (s : Machine) (a : Kobj) : Prop :=
  (s.obj a).koType = .addressTree ∧ ∃ p < s.born, s.RunsIn p a

instance (s : Machine) (a : Kobj) : Decidable (s.InUse a) := inferInstanceAs (Decidable (_ ∧ _))

/-- If the processor runs, it does so in an address tree that is alive and referred to. -/
def Housed (s : Machine) (p : Kobj) : Prop :=
  s.live p = true → (s.obj p).koType = .processor → (s.obj p).ps.psRunning = true →
    ∃ a, (s.obj p).ps.psAt = some a ∧ s.live a = true ∧ (s.obj a).koType = .addressTree ∧
      (s.obj a).koRef ≠ 0

/-- Every processor but perhaps one is looked at. -/
def HousedBut (out : Option Kobj) (s : Machine) : Prop :=
  Plain s ∧ ∀ p, out ≠ some p → Housed s p

lemma Plain.not_drops (hs : Plain s) (hd : .drop a ∈ K → (s.obj a).koRef = 1 → ¬ s.InUse a)
    (ht : (s.obj a).koType = .addressTree) (hp : s.RunsIn p a) :
    Permits K s a → (s.obj a).koRef ≠ 1 := by
  intro hdrop h1
  rcases hs.permits hdrop with hk | ⟨-, hshare⟩
  · exact hd hk h1 ⟨ht, p, hs.1 p hp.1, hp⟩
  · exact absurd (ht.symm.trans hshare) (by simp)

lemma HousedBut.effect (hs : HousedBut out s) (h : Effect K s s') (hf : .fault ∉ K)
    (hu : .unset ∉ K) (hstart : .start ∈ K → s.Held .addressTree ∧ ∀ ko, .drop ko ∉ K)
    (hd : ∀ a, .drop a ∈ K → (s.obj a).koRef = 1 → ¬ s.InUse a) : HousedBut out s' := by
  refine ⟨hs.1.effect h hf, fun p hp hl' ht' hrun => ?_⟩
  -- a tree that is referred to and does not lose its last reference
  have hstay : ∀ {a}, s.live a = true → (s.obj a).koType = .addressTree → (s.obj a).koRef ≠ 0 →
      (Permits K s a → (s.obj a).koRef ≠ 1) → s'.live a = true ∧
        (s'.obj a).koType = .addressTree ∧ (s'.obj a).koRef ≠ 0 := fun hl ht hr hdrop =>
    ⟨(hs.1.1.stays h hf hl).1, (hs.1.1.stays h hf hl).2.trans ht,
      h.koRef_ne hf (hs.1.1 _ hl) hr hdrop⟩
  have hsame : (s'.obj p).live = (s.obj p).live → (s'.obj p).koType = (s.obj p).koType →
      (s'.obj p).ps.psRunning = (s.obj p).ps.psRunning → (s'.obj p).ps.psAt = (s.obj p).ps.psAt →
      ∃ a, (s'.obj p).ps.psAt = some a ∧ s'.live a = true ∧ (s'.obj a).koType = .addressTree ∧
        (s'.obj a).koRef ≠ 0 := by
    intro h1 h2 h3 h4
    obtain ⟨a, hat, hl, ht, hr⟩ := hs.2 p hp (h1.symm.trans hl') (h2.symm.trans ht')
      (h3.symm.trans hrun)
    exact ⟨a, h4.trans hat, hstay hl ht hr (hs.1.not_drops (hd a) ht
      ⟨h1.symm.trans hl', h2.symm.trans ht', h3.symm.trans hrun, hat⟩)⟩
  cases h.objStep hf p with
  | mild hm => exact hsame hm.live hm.koType hm.running hm.psAt
  | birth _ _ _ ho =>
    rw [ho] at hrun
    exact absurd hrun Bool.false_ne_true
  | incref _ ho | decref _ _ ho => exact hsame (by rw [ho]) (by rw [ho]) (by rw [ho]) (by rw [ho])
  | @start hk a q hl ht hq ho =>
    obtain ⟨hheld, hno⟩ := hstart hk
    refine ⟨a, by rw [ho, hq], hstay hl ht (hheld a (hs.1.1 a hl) hl ht) fun hdrop => ?_⟩
    rcases hs.1.permits hdrop with hk' | ⟨-, hshare⟩
    · exact absurd hk' (hno a)
    · exact absurd (ht.symm.trans hshare) (by simp)
  | unset hk => exact absurd hk hu

lemma Effect.inUse (h : Effect K s s') (hs : Born s) (hf : .fault ∉ K) (hstart : .start ∉ K)
    (hbirth : ∀ t, .birth t ∉ K) (ha : s'.InUse a) : s.InUse a := by
  obtain ⟨ht, p, -, hl, hp, hrun, hat⟩ := ha
  have hkin : ∀ q, Kin (s.obj q) (s'.obj q) := fun q =>
    (h.kin hf q).resolve_right fun hb => hbirth _ hb.2.2
  have hlive : s.live p = true := (hkin p).1.symm.trans hl
  refine ⟨(hkin a).2.2.symm.trans ht, p, hs p hlive, hlive, (hkin p).2.2.symm.trans hp, ?_⟩
  cases h.objStep hf p with
  | mild hm => exact ⟨hm.running.symm.trans hrun, hm.psAt.symm.trans hat⟩
  | birth hk => exact absurd hk (hbirth _)
  | incref _ ho | decref _ _ ho =>
    rw [ho] at hrun hat
    exact ⟨hrun, hat⟩
  | start hk => exact absurd hk hstart
  | unset _ h1 h2 ho =>
    rw [ho] at hrun hat
    exact ⟨h1 hrun, h2 a hat⟩

/-! ### Halting -/

lemma HousedBut.setPs {ps : Kobj} {g : Processor → Processor} (hs : HousedBut (some ps) s)
    (hps : out = some ps ∨ ∀ q, (g q).psRunning = false) :
    HousedBut out (s.modObj ps fun o => { o with ps := g o.ps }) := by
  have hkin : ∀ q, Kin (s.obj q) ((s.modObj ps fun o => { o with ps := g o.ps }).obj q) := fun q =>
    kin_modObj ps q ⟨rfl, rfl, rfl⟩
  refine ⟨⟨fun q hq => hs.1.1 q ((hkin q).1.symm.trans hq), fun q => ?_⟩, fun p hp hl ht hrun => ?_⟩
  · exact (modObj_eq (g := fun o => o.tree.atObj.ref.object) rfl q).trans (hs.1.2 q)
  by_cases hq : p = ps
  · subst hq
    rw [modObj_self] at hrun
    rcases hps with hps | hps
    · exact absurd hps hp
    · exact absurd ((hps _).symm.trans hrun) Bool.false_ne_true
  · rw [modObj_of_ne hq] at ht hrun ⊢
    obtain ⟨a, hat, hla, hta, hra⟩ := hs.2 p (by simpa using Ne.symm hq)
      ((hkin p).1.symm.trans hl) ht hrun
    refine ⟨a, hat, (hkin a).1.trans hla, (hkin a).2.2.trans hta, ?_⟩
    rwa [modObj_eq (g := Kobject.koRef) rfl]

/-- While it is being halted a processor has no address tree, but nothing that is done then can
fail, and at the end it no longer runs. -/
lemma processorHalt_housed (ps : Kobj) :
    Steps (fun s s' => HousedBut none s → HousedBut none s') (processorHalt ps) := by
  have heff : ∀ {out : Option Kobj} (t t' : Machine), Effect {.dropShare} t t' →
      HousedBut out t → HousedBut out t' := fun t t' he ht =>
    ht.effect he (by simp) (by simp) (by simp) (by simp)
  have keep : ∀ {m : KM Unit} {t : Machine} {J : Machine → Prop} {out : Option Kobj},
      Errless m → Does {.dropShare} m → HousedBut out t →
      wp m (fun _ => HousedBut out) (.both J) t := fun hm hd ht => hm.wp_of_steps hd heff ht
  refine .of_wp fun s => ?_
  by_cases hs : HousedBut none s
  swap
  · exact wp_of_forall (fun _ _ h => absurd h hs) (fun _ _ h => absurd h hs) fun _ _ => trivial
  simp only [processorHalt, wp_rules, wp_derefAs_any, wp_processorSched, wp_modProcessor]
  refine fun _ _ => ⟨fun _ _ => ?_, fun _ => ⟨fun a _ => ?_, fun _ => trivial⟩⟩
  · -- a processor of another CPU is only told to halt
    exact heff _ _ (.quiet (.modObj (s := s) ⟨rfl, id⟩ s.forest)) hs
  · refine wp_post (keep (atDetach_errless a ps)
      (Tracks.steps fun _ _ _ => atDetach_acts a ps) hs) fun _ t ht => ?_
    have ht : HousedBut (some ps) t := ⟨ht.1, fun p _ => ht.2 p (by simp)⟩
    refine wp_post (keep (sharemapClear_errless (fun _ => .halt _) ps)
      (Tracks.steps fun _ _ _ => sharemapClear_acts ps)
      (ht.setPs (g := fun p => { p with psAt := none, psAtref := {} }) (.inl rfl)))
      fun _ u hu _ => ?_
    exact (heff _ _ (.quiet (.of_obj rfl rfl)) hu).setPs
      (g := fun p => { p with psRunning := false }) (.inr fun _ => rfl)

/-! ### Runs -/

/-- What holds while a step with changes of the kinds `K` is under way. -/
structure Sheltered (K : Set Kind) (s : Machine) : Prop where
  housed : HousedBut none s
  start : .start ∈ K → s.Held .addressTree
  drop : ∀ a, .drop a ∈ K → ¬ s.InUse a

lemma Sheltered.move (hs : Sheltered K s) (hf : .fault ∉ K) (hu : .unset ∉ K)
    (hstart : .start ∈ K → .halt ∉ K ∧ .birth .addressTree ∉ K ∧ ∀ ko, .drop ko ∉ K)
    (hdrop : ∀ ko, .drop ko ∈ K → ∀ t, .birth t ∉ K) (h : Move K s s') : Sheltered K s' := by
  have hno : ∀ {K'}, .fault ∉ K' → .start ∉ K' → (∀ t, .birth t ∉ K') → ∀ a (t t' : Machine),
      Effect K' t t' → Born t ∧ ¬ t.InUse a → Born t' ∧ ¬ t'.InUse a := fun hf hs hb a t t' he ht =>
    ⟨ht.1.effect he hf, fun ha => ht.2 (he.inUse ht.1 hf hs hb ha)⟩
  cases h with
  | effect he =>
    refine ⟨hs.housed.effect he hf hu (fun hk => ⟨hs.start hk, (hstart hk).2.2⟩)
      fun a hk _ => hs.drop a hk, fun hk => ?_, fun a hk => ?_⟩
    · refine (hs.start hk).effect hs.housed.1.1 he hf (hstart hk).2.1 fun p hp ht => ?_
      rcases hs.housed.1.permits hp with hd | ⟨-, hshare⟩
      · exact (hstart hk).2.2 p hd
      · exact absurd (ht.symm.trans hshare) (by simp)
    · exact (hno hf (fun hk' => (hstart hk').2.2 a hk) (hdrop a hk) a _ _ he
        ⟨hs.housed.1.1, hs.drop a hk⟩).2
  | @halt hk ps hends =>
    refine ⟨Steps.keeps (fun _ _ => id) (processorHalt_housed ps s hends) hs.housed,
      fun hk' => absurd hk (hstart hk').1, fun a ha => ?_⟩
    exact (Steps.keeps (R := Effect Halting) (hno (by simp) (by simp) (by simp) a)
      (processorHalt_does ps s hends) ⟨hs.housed.1.1, hs.drop a ha⟩).2

/-- A condition on the state in which a step is made: no page fault is served, a processor is
started only while every address tree is referred to, `share_action_scan` does not give up the last
reference to a tree in use, and a share that is collected holds no tree in use. -/
def Event.KeepsTrees (s : Machine) (e : Event) : Prop :=
  .fault ∉ e.act.kinds ∧ (.start ∈ e.act.kinds → s.Held .addressTree) ∧
    (∀ a ∈ e.removes s, (s.obj a).koRef = 1 → ¬ s.InUse a) ∧
    ∀ sh ∈ e.collects s, (s.obj sh).koType = .share → ∀ a ∈ (s.obj sh).members, ¬ s.InUse a
  deriving Decidable

lemma Event.mem_removes (ha : e.act = .scan) (h : s.nextDrop e.cpu = some ko) :
    ko ∈ e.removes s := by
  rw [Event.removes, ha]
  exact h

lemma Event.mem_collects (ha : e.act = .gc) (h : s.nextGc e.cpu = some ko)
    (hr : (s.obj ko).koRef = 0) : ko ∈ e.collects s := by
  simp [Event.collects, ha, h, hr]

lemma gcCb_koRef {u : Machine} (h : (gcCb ko).next s = some u) (hr : (s.obj ko).koRef = 0) :
    (u.obj ko).koRef = 0 := by
  obtain ⟨-, hf, href, -⟩ := gcKinds_spec (s.obj ko)
  refine Steps.keeps (I := fun t => (t.obj ko).koRef = 0) (fun t t' hm ht => ?_) (gcCb_moves h) hr
  refine hm.keeps (I := fun t => (t.obj ko).koRef = 0) (fun t t' he ht => ?_) ht
  exact he.koRef_zero (by simpa using hf) (by simpa using href) ht

lemma HousedBut.bury (hs : HousedBut none s) (hr : (s.obj ko).koRef = 0) :
    HousedBut none (s.bury ko) := by
  refine ⟨hs.1.bury ko, fun p _ hl ht hrun => ?_⟩
  obtain ⟨hne, hlive⟩ := live_bury hl
  rw [bury_of_ne hne] at ht hrun ⊢
  obtain ⟨a, hat, hla, hta, hra⟩ := hs.2 p nofun hlive ht hrun
  have ha : a ≠ ko := by
    rintro rfl
    exact hra hr
  exact ⟨a, hat, by rwa [live, bury_of_ne ha], by rwa [bury_of_ne ha], by rwa [bury_of_ne ha]⟩

/-- **The rule for a step**: of a call, of a removal that is completed, and of the collector. -/
lemma Stepped.keeps {I : Machine → Prop} (h : Stepped e s s') (hs : I (s.at e.cpu))
    (hact : ReflTransGen (Move {k | k ∈ e.act.kinds}) (s.at e.cpu) s' → I s')
    (hdrop : ∀ ko ∈ e.removes s, ∀ t, Decrefs ko (s.at e.cpu) t → I t)
    (heffect : ∀ t t', Effect ∅ t t' → I t → I t')
    (hpop : ∀ ko, s.nextGc e.cpu = some ko → I ((s.at e.cpu).popGc e.cpu))
    (hfree : ∀ ko ∈ e.collects s, s.nextGc e.cpu = some ko → s.live ko = true →
      (s.obj ko).koRef = 0 → ∀ u, (gcCb ko).next ((s.at e.cpu).popGc e.cpu) = some u →
        I u ∧ ∀ f, I (Machine.bury ko { u with forest := f })) : I s' := by
  cases h with
  | act _ _ hm => exact hact hm
  | scan ha hsc =>
    obtain ⟨t, rfl | ⟨ko, hnext, hdec⟩, hsteps⟩ := hsc
    · exact Steps.keeps heffect hsteps hs
    · exact Steps.keeps heffect hsteps (hdrop ko (Event.mem_removes ha hnext) t hdec)
  | gc ha hr =>
    cases hr with
    | idle => exact hs
    | kept hnext => exact hpop _ hnext
    | failed hnext hl hr hcb =>
      exact (hfree _ (Event.mem_collects ha hnext hr) hnext hl hr _ hcb).1
    | freed hnext hl hr hcb =>
      exact (hfree _ (Event.mem_collects ha hnext hr) hnext hl hr _ hcb).2 _

lemma HousedBut.step (hs : HousedBut none s) (hok : e.KeepsTrees s) (h : e.step s = some s') :
    HousedBut none s' := by
  obtain ⟨hf, hstart, hremove, hcollect⟩ := hok
  have hat : HousedBut none (s.at e.cpu) := hs
  refine (Event.stepped h).2.keeps hat (fun hm => ?_) (fun ko hko t hdec => ?_)
    (fun t t' he ht => ht.effect he (by simp) (by simp) (by simp) (by simp)) (fun _ _ => hat)
    fun ko hko _ _ hr u hcb => ?_
  · obtain ⟨hu, hd, -, hh, -, hb⟩ := Act.kinds_spec hf
    have hK : Sheltered {k | k ∈ e.act.kinds} (s.at e.cpu) :=
      ⟨hat, hstart, fun a ha => absurd ha (hd a)⟩
    refine (Steps.keeps (fun t t' he ht => ?_) hm hK).housed
    exact Sheltered.move ht hf hu (fun hk => ⟨fun hk' => (hh hk').2 hk, hb hk, hd⟩)
      (fun ko hk => absurd hk (hd ko)) he
  · refine hat.effect (K := {.drop ko}) (.decref (.inl (Set.mem_singleton _)) hdec) (by simp)
      (by simp) (by simp) fun a hk => ?_
    rw [Set.mem_singleton_iff, Kind.drop.injEq] at hk
    exact hk ▸ hremove ko hko
  · obtain ⟨hu, hf, -, hs', -, hb⟩ := gcKinds_spec (s.obj ko)
    have hK : Sheltered (s.obj ko).gcKinds ((s.at e.cpu).popGc e.cpu) := by
      refine ⟨hs, fun hk => absurd hk hs', fun a hk => ?_⟩
      obtain ⟨⟨⟩, -⟩ | ⟨a', hmem, heq, hshare⟩ := hk
      cases heq
      exact hcollect ko hko hshare a hmem
    have hend : HousedBut none u := (Steps.keeps (I := Sheltered (s.obj ko).gcKinds) (fun t t' he ht =>
      ht.move hf hu (fun hk => absurd hk hs') (fun _ _ => hb) he) (gcCb_moves hcb :) hK).housed
    exact ⟨hend, fun _ => hend.bury (gcCb_koRef hcb hr)⟩

/-- While booting nothing is given up, so a tree that a processor has been started in stays. -/
lemma HousedBut.of_boot (h : kernel.init s) (hheld : s.Held .addressTree) : HousedBut none s := by
  obtain ⟨k, ncpu, ndev, -, hb⟩ := boot_effects h
  have hinv : Plain s ∧ ∀ p, (s.obj p).ps.psRunning = true → ∃ a, (s.obj p).ps.psAt = some a ∧
      s.live a = true ∧ (s.obj a).koType = .addressTree := by
    refine Steps.keeps (R := Effect Building) (I := fun s => Plain s ∧ ∀ p,
      (s.obj p).ps.psRunning = true → ∃ a, (s.obj p).ps.psAt = some a ∧ s.live a = true ∧
        (s.obj a).koType = .addressTree) (fun t t' he ⟨hp, ht⟩ => ?_) hb
      ⟨plain_bare k ncpu ndev, fun p hrun => absurd hrun Bool.false_ne_true⟩
    refine ⟨hp.effect he (by simp), fun p hrun => ?_⟩
    have hstay : ∀ {a}, t.live a = true → (t.obj a).koType = .addressTree →
        t'.live a = true ∧ (t'.obj a).koType = .addressTree := fun hl hty =>
      ⟨(hp.1.stays he (by simp) hl).1, (hp.1.stays he (by simp) hl).2.trans hty⟩
    cases he.objStep (by simp) p with
    | mild hm =>
      obtain ⟨a, hat, hl, hty⟩ := ht p (hm.running.symm.trans hrun)
      exact ⟨a, hm.psAt.trans hat, hstay hl hty⟩
    | birth _ _ _ ho =>
      rw [ho] at hrun
      exact absurd hrun Bool.false_ne_true
    | incref _ ho | decref _ _ ho =>
      rw [ho] at hrun ⊢
      obtain ⟨a, hat, hl, hty⟩ := ht p hrun
      exact ⟨a, hat, hstay hl hty⟩
    | @start hk a q hl hty hq ho => exact ⟨a, by rw [ho, hq], hstay hl hty⟩
    | unset hk => simp at hk
  refine ⟨hinv.1, fun p _ _ _ hrun => ?_⟩
  obtain ⟨a, hat, hl, hty⟩ := hinv.2 p hrun
  exact ⟨a, hat, hl, hty, hheld a (hinv.1.1 a hl) hl hty⟩

/-- **A running processor's address tree stays alive**, in every run of the kernel from boot, as
long as references to trees are given up as `Event.KeepsTrees` says. As when other processors are
started, the tree that the kernel boots in has to be referred to. -/
theorem running_processor_keeps_tree (hinit : kernel.init start)
    (hheld : start.Held .addressTree) (h : (kernelFrom start).Reach (fun s e => e.KeepsTrees s) s)
    (p : Kobj) (hl : s.live p = true) (ht : (s.obj p).koType = .processor)
    (hrun : (s.obj p).ps.psRunning = true) :
    ∃ a, (s.obj p).ps.psAt = some a ∧ s.live a = true ∧ (s.obj a).koType = .addressTree := by
  have hs : HousedBut none s := h.invariant
    (fun s (hs : s = start) => hs ▸ HousedBut.of_boot hinit hheld)
    fun s e s' hI hok hs => hI.step hok hs
  obtain ⟨a, hat, hla, hta, -⟩ := hs.2 p nofun hl ht hrun
  exact ⟨a, hat, hla, hta⟩

/-- Two processors run in two trees, and a third tree is taken out of its share and collected. -/
def collectTree : List Event :=
  List.replicate 3 ⟨0, .gc⟩ ++
  [⟨0, .syscall (.atAlloc 1 0 0)⟩, ⟨0, .syscall (.processorAlloc 1 1)⟩,
    ⟨0, .syscall (.processorVector ⟨1, 5⟩ { ucAt := ⟨1, 4⟩, ucShare := [⟨1, 1⟩] })⟩,
    ⟨0, .syscall (.atAlloc 1 0 0)⟩] ++ List.replicate 3 ⟨0, .gc⟩ ++
  [⟨0, .syscall (.shareUnref 1 6)⟩] ++ List.replicate 4 ⟨0, .scan⟩ ++ [⟨0, .gc⟩]

theorem running_processor_keeps_tree_collected :
    ∃ start s, kernel.init start ∧ start.Held .addressTree ∧
      (kernelFrom start).Reach (fun s e => e.KeepsTrees s) s ∧
      (s.obj 4).Runs 3 ∧ s.live 5 = false ∧
      ∃ a, (s.obj 4).ps.psAt = some a ∧ s.live a = true ∧ (s.obj a).koType = .addressTree := by
  obtain ⟨start, s, hinit, hheld, hs, hl, ht, hrun, hdead⟩ := reachFrom_of_bootRun 60 2 collectTree
    (B := Machine.Held .addressTree) (G := fun s e => e.KeepsTrees s)
    (P := fun s => s.live 4 = true ∧ (s.obj 4).koType = .processor ∧ (s.obj 4).Runs 3 ∧
      s.live 5 = false) (by decide +kernel)
  exact ⟨start, s, hinit, hheld, hs, hrun, hdead,
    running_processor_keeps_tree hinit hheld hs 4 hl ht hrun.1⟩

/-- The only share drops the address tree that the boot processor runs in. -/
def unrefTree : List Event :=
  [⟨0, .gc⟩, ⟨0, .gc⟩, ⟨0, .gc⟩, ⟨0, .syscall (.shareUnref 1 3)⟩, ⟨0, .scan⟩, ⟨0, .scan⟩,
    ⟨0, .gc⟩]

/-- The tree is collected and the processor still runs in it. -/
theorem running_processor_loses_tree :
    ∃ s, kernel.Reachable s ∧ s.live 1 = true ∧ (s.obj 1).koType = .processor ∧
      (s.obj 1).Runs 2 ∧ s.live 2 = false :=
  reachable_of_bootRun 40 1 unrefTree (by decide +kernel)

end Corey.Kern
