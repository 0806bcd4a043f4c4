import Corey.Kern.Lifetime

/-!
Actions that wait.

An action on the list of a CPU lies in a blob of the share it acts on, and so does the
`share_info` it is about, but no count records that. A share outlives its actions as long as
references to shares are given up only while no action waits.
-/

namespace Corey.Kern

open Function Corey.Comp Corey.Mem Machine
open Relation (ReflTransGen)

variable {K : Set Kind} {s s' start : Machine} {ko : Kobj} {a : ShareAction} {e : Event}

/-- The action waits on a list of some CPU. -/
def Machine.Queued (s : Machine) (a : ShareAction) : Prop :=
  ∃ cpu < josNcpu, a ∈ s.shCiList cpu ∨ a ∈ s.shRmList cpu

/-- Some action waits. -/
def Machine.Pending (s : Machine) : Prop :=
  ∃ cpu < josNcpu, s.shCiList cpu ≠ [] ∨ s.shRmList cpu ≠ []

instance (s : Machine) : Decidable s.Pending :=
  inferInstanceAs (Decidable (∃ cpu < josNcpu, _))

lemma pending_iff : s.Pending ↔ ∃ a, s.Queued a := by
  constructor
  · rintro ⟨cpu, hcpu, h | h⟩
    · obtain ⟨a, ha⟩ := List.exists_mem_of_ne_nil _ h
      exact ⟨a, cpu, hcpu, .inl ha⟩
    · obtain ⟨a, ha⟩ := List.exists_mem_of_ne_nil _ h
      exact ⟨a, cpu, hcpu, .inr ha⟩
  · rintro ⟨a, cpu, hcpu, h⟩
    exact ⟨cpu, hcpu, h.imp List.ne_nil_of_mem List.ne_nil_of_mem⟩

lemma Effect.queued (h : Effect K s s') (hf : .fault ∉ K) (ha : s'.Queued a) :
    s.Queued a ∨ .act ∈ K ∧ s.live a.saSh = true ∧ (s.obj a.saSh).koType = .share := by
  cases h with
  | quiet hq =>
    have hci : s'.shCiList = s.shCiList := congrArg (·.2.1) hq.lists
    have hrm : s'.shRmList = s.shRmList := congrArg (·.2.2.1) hq.lists
    rw [Machine.Queued, hci, hrm] at ha
    exact .inl ha
  | birth | incref | start | unset => exact .inl ha
  | decref _ h => cases h <;> exact .inl ha
  | pop hc hr =>
    obtain ⟨cpu, hcpu, ha⟩ := ha
    exact .inl ⟨cpu, hcpu, ha.imp (@hc cpu a) (@hr cpu a)⟩
  | push hk h =>
    rcases h with ⟨⟩ | ⟨hl, ht, hc, hr⟩
    · exact .inl ha
    · obtain ⟨cpu, hcpu, ha⟩ := ha
      rcases ha with ha | ha
      · rcases List.mem_cons.mp (hc cpu ha) with rfl | ha
        · exact .inr ⟨hk, hl, ht⟩
        · exact .inl ⟨cpu, hcpu, .inl ha⟩
      · rcases List.mem_cons.mp (hr cpu ha) with rfl | ha
        · exact .inr ⟨hk, hl, ht⟩
        · exact .inl ⟨cpu, hcpu, .inr ha⟩
  | fault hk => exact absurd hk hf

/-- Every action that waits acts on a share that is alive and referred to. -/
def Backs (s : Machine) : Prop :=
  Plain s ∧ ∀ a, s.Queued a → s.live a.saSh = true ∧ (s.obj a.saSh).koType = .share ∧
    (s.obj a.saSh).koRef ≠ 0

lemma Backs.effect (hs : Backs s) (h : Effect K s s') (hf : .fault ∉ K)
    (hact : .act ∈ K → s.Held .share ∧ ∀ p, ¬ Permits K s p)
    (hd : ∀ ko, Permits K s ko → (s.obj ko).koRef = 1 → ∀ a, s.Queued a → a.saSh ≠ ko) :
    Backs s' := by
  refine ⟨hs.1.effect h hf, fun a ha => ?_⟩
  obtain ⟨hl, ht, hr, hdrop⟩ : s.live a.saSh = true ∧ (s.obj a.saSh).koType = .share ∧
      (s.obj a.saSh).koRef ≠ 0 ∧ (Permits K s a.saSh → (s.obj a.saSh).koRef ≠ 1) := by
    rcases h.queued hf ha with hq | ⟨hk, hl, ht⟩
    · obtain ⟨hl, ht, hr⟩ := hs.2 a hq
      exact ⟨hl, ht, hr, fun hdrop h1 => hd _ hdrop h1 a hq rfl⟩
    · exact ⟨hl, ht, (hact hk).1 _ (hs.1.1 _ hl) hl ht, fun hdrop => absurd hdrop ((hact hk).2 _)⟩
  obtain ⟨hl', ht'⟩ := hs.1.1.stays h hf hl
  exact ⟨hl', ht'.trans ht, h.koRef_ne hf (hs.1.1 _ hl) hr hdrop⟩

/-- While no action waits and none is queued, references may be given up. -/
lemma Backs.effect_idle (hf : .fault ∉ K) (hact : .act ∉ K) (h : Effect K s s')
    (hs : Backs s ∧ ¬ s.Pending) : Backs s' ∧ ¬ s'.Pending := by
  have hno : ∀ a, ¬ s.Queued a := fun a ha => hs.2 (pending_iff.mpr ⟨a, ha⟩)
  refine ⟨hs.1.effect h hf (fun hk => absurd hk hact) fun _ _ _ a ha => absurd ha (hno a), ?_⟩
  rw [pending_iff]
  rintro ⟨a, ha⟩
  rcases h.queued hf ha with hq | ⟨hk, -⟩
  · exact hno a hq
  · exact hact hk

/-! ### Runs -/

/-- What holds while a step with changes of the kinds `K` is under way. -/
structure Secure (K : Set Kind) (s : Machine) : Prop where
  backs : Backs s
  act : .act ∈ K → s.Held .share
  gives : GivesUp K → ¬ s.Pending

lemma Secure.move (hs : Secure K s) (hf : .fault ∉ K)
    (hact : .act ∈ K → ¬ GivesUp K ∧ .birth .share ∉ K) (h : Move K s s') : Secure K s' := by
  by_cases hg : GivesUp K
  · have hno : .act ∉ K := fun hk => (hact hk).1 hg
    have hend : Backs s' ∧ ¬ s'.Pending := h.keeps (fun _ _ he ht =>
      Backs.effect_idle (by simpa using hf) (by simpa using hno) he ht) ⟨hs.backs, hs.gives hg⟩
    exact ⟨hend.1, fun hk => absurd hk hno, fun _ => hend.2⟩
  · cases h with
    | effect he =>
      have hno : ∀ p, ¬ Permits K s p := fun p hp => hg (hs.backs.1.givesUp hp)
      exact ⟨hs.backs.effect he hf (fun hk => ⟨hs.act hk, hno⟩) fun p hp => absurd hp (hno p),
        fun hk => (hs.act hk).effect hs.backs.1.1 he hf (hact hk).2 fun p hp => absurd hp (hno p),
        fun hk => absurd hk hg⟩
    | halt hk => exact absurd (.inl hk) hg

/-- A condition on the state in which a step is made: no page fault is served; objects are looked
up and taken out of shares only while every share is referred to, and not by `sys_processor_halt`;
a processor is halted, a share dropped, and a share or a processor collected only while no action
waits; and `share_action_scan` does not give up the last reference to a share on which an action
waits. -/
def Event.KeepsShares (s : Machine) (e : Event) : Prop :=
  .fault ∉ e.act.kinds ∧ (.act ∈ e.act.kinds → .halt ∉ e.act.kinds ∧ s.Held .share) ∧
    (.halt ∈ e.act.kinds → ¬ s.Pending) ∧
    (∀ ko ∈ e.removes s, (s.obj ko).koRef = 1 → ∀ cpu < josNcpu,
      ∀ a ∈ s.shCiList cpu ++ s.shRmList cpu, a.saSh ≠ ko) ∧
    ∀ ko ∈ e.collects s, (s.obj ko).koType = .share ∨ (s.obj ko).koType = .processor → ¬ s.Pending

instance (s : Machine) (e : Event) : Decidable (e.KeepsShares s) :=
  inferInstanceAs (Decidable (_ ∧ _ ∧ _ ∧ _ ∧ _))

lemma Backs.bury (hs : Backs s) (hr : (s.obj ko).koRef = 0) : Backs (s.bury ko) := by
  refine ⟨hs.1.bury ko, fun a ha => ?_⟩
  obtain ⟨hl, ht, hne⟩ := hs.2 a ha
  have hko : a.saSh ≠ ko := by
    rintro rfl
    exact hne hr
  exact ⟨by rwa [live, bury_of_ne hko], by rwa [bury_of_ne hko], by rwa [bury_of_ne hko]⟩

lemma Backs.step (hs : Backs s) (hok : e.KeepsShares s) (h : e.step s = some s') : Backs s' := by
  obtain ⟨hf, hact, hhalt, hremove, hcollect⟩ := hok
  have hat : Backs (s.at e.cpu) := hs
  refine (Event.stepped h).2.keeps hat (fun hm => ?_) (fun ko hko t hdec => ?_)
    (fun t t' he ht => ht.effect he (by simp) (by simp) fun ko hd => by
      simpa using ht.1.permits hd) (fun _ _ => hat) fun ko hko _ _ hr u hcb => ?_
  · obtain ⟨-, -, hgives, -, hb, -⟩ := Act.kinds_spec hf
    have hK : Secure {k | k ∈ e.act.kinds} (s.at e.cpu) :=
      ⟨hat, fun hk => (hact hk).2, fun hg => hhalt (hgives hg)⟩
    exact (Steps.keeps (I := Secure {k | k ∈ e.act.kinds}) (fun t t' he ht => ht.move hf
      (fun hk => ⟨fun hg => (hact hk).1 (hgives hg), hb hk⟩) he) hm hK).backs
  · refine hat.effect (K := {.drop ko}) (.decref (.inl (Set.mem_singleton _)) hdec) (by simp)
      (by simp) fun ko' hd h1 a hq => ?_
    have heq : ko' = ko := by simpa using hat.1.permits hd
    subst heq
    obtain ⟨cpu, hcpu, hq⟩ := hq
    exact hremove ko' hko h1 cpu hcpu a (List.mem_append.mpr hq)
  · obtain ⟨-, hf, -, -, hno, -⟩ := gcKinds_spec (s.obj ko)
    have hK : Secure (s.obj ko).gcKinds ((s.at e.cpu).popGc e.cpu) :=
      ⟨hs, fun hk => absurd hk hno, fun hg => hcollect ko hko (gcKinds_givesUp hg)⟩
    have hend : Backs u := (Steps.keeps (I := Secure (s.obj ko).gcKinds) (fun t t' he ht =>
      ht.move hf (fun hk => absurd hk hno) he) (gcCb_moves hcb :) hK).backs
    exact ⟨hend, fun _ => hend.bury (gcCb_koRef hcb hr)⟩

/-- While booting nothing is given up, so a share that has been looked into stays. -/
lemma Backs.of_boot (h : kernel.init s) (hheld : s.Held .share) : Backs s := by
  obtain ⟨k, ncpu, ndev, -, hb⟩ := boot_effects h
  have hinv : Plain s ∧ ∀ a, s.Queued a → s.live a.saSh = true ∧
      (s.obj a.saSh).koType = .share := by
    refine Steps.keeps (R := Effect Building) (I := fun s => Plain s ∧ ∀ a, s.Queued a →
      s.live a.saSh = true ∧ (s.obj a.saSh).koType = .share) (fun t t' he ⟨hp, ht⟩ => ?_) hb
      ⟨plain_bare k ncpu ndev, ?_⟩
    · refine ⟨hp.effect he (by simp), fun a ha => ?_⟩
      obtain ⟨hl, hty⟩ := (he.queued (by simp) ha).elim (ht a) And.right
      obtain ⟨hl', hty'⟩ := hp.1.stays he (by simp) hl
      exact ⟨hl', hty'.trans hty⟩
    · rintro a ⟨cpu, -, ha | ha⟩ <;> cases ha
  refine ⟨hinv.1, fun a ha => ?_⟩
  obtain ⟨hl, hty⟩ := hinv.2 a ha
  exact ⟨hl, hty, hheld _ (hinv.1.1 _ hl) hl hty⟩

/-- A share is made and used, dropped and taken out of its own share, and collected. -/
def collectShare : List Event :=
  List.replicate 3 ⟨0, .gc⟩ ++
  [⟨0, .scan⟩, ⟨0, .syscall (.shareAlloc 1 31 0)⟩, ⟨0, .syscall (.segmentAlloc 4 4096 0)⟩,
    ⟨0, .gc⟩, ⟨0, .gc⟩, ⟨0, .syscall (.shareUnref 4 5)⟩, ⟨0, .scan⟩,
    ⟨0, .syscall (.selfDropShare 4)⟩, ⟨0, .syscall (.shareUnref 1 4)⟩, ⟨0, .scan⟩, ⟨0, .gc⟩,
    ⟨0, .syscall (.objGetName ⟨1, 2⟩)⟩]

/-- A second CPU polls a monitor, and takes a segment out of a share that the first CPU then
drops and collects. -/
def dropShare : List Event :=
  List.replicate 3 ⟨0, .gc⟩ ++
  [⟨0, .syscall (.segmentAlloc 1 4096 0)⟩, ⟨0, .syscall (.deviceAlloc 1 1 0)⟩,
    ⟨0, .syscall (.processorAlloc 1 1)⟩, ⟨0, .syscall (.processorSetDevice ⟨1, 6⟩ 0 ⟨1, 5⟩)⟩,
    ⟨0, .syscall (.atAlloc 1 0 0)⟩,
    ⟨0, .syscall (.processorVector ⟨1, 6⟩
      { ucMode := .mon, ucAt := ⟨1, 7⟩, ucShare := [⟨1, 1⟩] })⟩,
    ⟨1, .monitor⟩, ⟨0, .syscall (.deviceConf ⟨1, 5⟩ (.sysmon ⟨1, 4⟩ 0 1))⟩,
    ⟨0, .syscall (.shareAlloc 1 31 0)⟩] ++
  List.replicate 5 ⟨0, .gc⟩ ++ [⟨0, .syscall (.shareUnref 1 8)⟩] ++ List.replicate 7 ⟨0, .scan⟩ ++
  [⟨0, .syscall (.segmentAlloc 8 4096 0)⟩, ⟨1, .poll 4 (.shareUnref 8 9)⟩,
    ⟨0, .syscall (.selfDropShare 8)⟩, ⟨0, .gc⟩]

end Corey.Kern
