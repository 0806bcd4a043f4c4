import Corey.Kern.Lifetime
import Mathlib.Algebra.Order.BigOperators.Group.Finset

/-!
Each kernel object is collected once.

An object goes to a list of the collector when it is born and again each time its last reference
is given up; the two lists may belong to different CPUs. If references are given up only while
nothing that is referred to is still on a list, every object is on one list at most, what is on a
list is alive, and nothing is freed twice.
-/

namespace Corey.Kern

open Function Corey.Comp Corey.Mem Machine List
open Relation (ReflTransGen)

variable {K : Set Kind} {s s' : Machine} {ko x : Kobj} {l : ℕ → List Kobj} {cpu : ℕ} {e : Event}

/-- How often the object is on the lists of the collector. -/
def Machine.places (s : Machine) (ko : Kobj) : ℕ :=
  ∑ cpu ∈ Finset.range josNcpu, (s.koGcList cpu).count ko

/-- Nothing that is referred to is on a list. -/
def Machine.CaughtUp (s : Machine) : Prop :=
  ∀ cpu < josNcpu, ∀ ko ∈ s.koGcList cpu, (s.obj ko).koRef = 0

instance (s : Machine) : Decidable s.CaughtUp :=
  inferInstanceAs (Decidable (∀ cpu < josNcpu, _))

lemma places_ne_zero : s.places ko ≠ 0 ↔ ∃ cpu < josNcpu, ko ∈ s.koGcList cpu := by
  simp [Machine.places, count_eq_zero]

lemma Machine.CaughtUp.koRef (h : s.CaughtUp) (hx : s.places x ≠ 0) : (s.obj x).koRef = 0 := by
  obtain ⟨cpu, hcpu, hmem⟩ := places_ne_zero.mp hx
  exact h cpu hcpu x hmem

lemma Machine.CaughtUp.of_places (h : ∀ x, s.places x ≠ 0 → (s.obj x).koRef = 0) : s.CaughtUp :=
  fun cpu hcpu x hx => h x (places_ne_zero.mpr ⟨cpu, hcpu, hx⟩)

/-! ### What happens to the lists -/

/-- The object has been put on the list of a CPU. -/
def Inserts (ko : Kobj) (s s' : Machine) : Prop :=
  ∃ cpu, s'.koGcList = update s.koGcList cpu (ko :: s.koGcList cpu)

lemma Inserts.places_le (h : Inserts ko s s') (x : Kobj) :
    s'.places x ≤ s.places x + if x = ko then 1 else 0 := by
  obtain ⟨cpu, hl⟩ := h
  have hcount : ∀ c, (s'.koGcList c).count x ≤
      (s.koGcList c).count x + if c = cpu then (if x = ko then 1 else 0) else 0 := by
    intro c
    by_cases hc : c = cpu
    · subst hc
      rw [hl, update_self, if_pos rfl]
      by_cases hx : x = ko
      · subst hx
        simp
      · rw [count_cons_of_ne (Ne.symm hx)]
        exact Nat.le_add_right _ _
    · rw [hl, update_of_ne hc]
      exact Nat.le_add_right _ _
  calc s'.places x ≤ ∑ c ∈ Finset.range josNcpu,
        ((s.koGcList c).count x + if c = cpu then (if x = ko then 1 else 0) else 0) :=
        Finset.sum_le_sum fun c _ => hcount c
    _ ≤ s.places x + if x = ko then 1 else 0 := by
        rw [Finset.sum_add_distrib, Finset.sum_ite_eq']
        refine Nat.add_le_add_left ?_ _
        split_ifs <;> simp

/-- The lists of the collector only grow, by a newborn object or by one that loses its last
reference. -/
inductive ListStep (K : Set Kind) (s s' : Machine) : Prop
  | same (hl : s'.koGcList = s.koGcList)
  | birth (hl : Inserts s.born s s') (hlive : s'.live s.born = true)
      (h0 : (s'.obj s.born).koRef = 0)
  | drop (ko : Kobj) (hk : Permits K s ko) (h1 : (s.obj ko).koRef = 1) (hlive : s.live ko = true)
      (hl : Inserts ko s s') (h0 : (s'.obj ko).koRef = 0)

lemma Effect.listStep (h : Effect K s s') (hf : .fault ∉ K) : ListStep K s s' := by
  cases h with
  | quiet hq => exact .same (congrArg (·.1) hq.lists)
  | birth _ cpu =>
    exact .birth ⟨cpu, rfl⟩ (by simp [Machine.live, Machine.collect, Machine.bear])
      (by simp [Machine.collect, Machine.bear])
  | incref | start | unset | pop => exact .same rfl
  | push _ h => cases h <;> exact .same rfl
  | decref hk h =>
    rcases h with ⟨⟩ | ⟨⟩ | ⟨h1, hl, cpu⟩
    · exact .same rfl
    · exact .same rfl
    · exact .drop _ hk h1 hl ⟨cpu, rfl⟩ (by simp [Machine.collect, h1])
  | fault hk => exact absurd hk hf

lemma Effect.freed (h : Effect K s s') (hf : .fault ∉ K) :
    s'.freed = s.freed ∧ s'.ncpu = s.ncpu := by
  cases h with
  | quiet hq => exact ⟨congrArg (·.2.2.2.1) hq.lists, congrArg (·.2.2.2.2.2) hq.lists⟩
  | birth | incref | start | unset | pop => exact ⟨rfl, rfl⟩
  | push _ h | decref _ h => cases h <;> exact ⟨rfl, rfl⟩
  | fault hk => exact absurd hk hf

lemma places_of_same (hl : s'.koGcList = s.koGcList) (x : Kobj) : s'.places x = s.places x := by
  rw [Machine.places, hl, Machine.places]

lemma Inserts.places_of_ne (h : Inserts ko s s') (hx : x ≠ ko) : s'.places x ≤ s.places x := by
  simpa [hx] using h.places_le x

/-- What holds as long as every object is collected once. -/
structure Collected (s : Machine) : Prop where
  plain : Plain s
  ncpu : s.ncpu ≤ josNcpu
  alive : ∀ ko, s.places ko ≠ 0 → s.live ko = true
  once : ∀ ko, s.places ko ≤ 1
  gone : ∀ r ∈ s.freed, r.1 < s.born ∧ s.live r.1 = false
  zero : ∀ r ∈ s.freed, r.2 = 0
  nodup : (s.freed.map Prod.fst).Nodup

lemma Collected.not_on (hs : Collected s) (h : s.born ≤ x) : s.places x = 0 := by
  by_contra hx
  exact absurd (hs.plain.1 x (hs.alive x hx)) (Nat.not_lt.mpr h)

lemma Collected.effect (hs : Collected s) (h : Effect K s s') (hf : .fault ∉ K)
    (hd : ∀ ko, Permits K s ko → s.CaughtUp) : Collected s' := by
  have hold : ∀ x, s.places x ≠ 0 → s'.live x = true := fun x hx =>
    (hs.plain.1.stays h hf (hs.alive x hx)).1
  obtain ⟨hfreed, hncpu⟩ := h.freed hf
  obtain ⟨halive, honce⟩ : (∀ x, s'.places x ≠ 0 → s'.live x = true) ∧ ∀ x, s'.places x ≤ 1 := by
    -- an object is put on a list only if it is on none
    have hins : ∀ {ko}, Inserts ko s s' → s.places ko = 0 → s'.live ko = true →
        (∀ x, s'.places x ≠ 0 → s'.live x = true) ∧ ∀ x, s'.places x ≤ 1 := by
      intro ko hl h0 hlive
      refine ⟨fun x hx => ?_, fun x => ?_⟩
      · by_cases hxk : x = ko
        · exact hxk ▸ hlive
        · exact hold x fun hz => hx (Nat.le_zero.mp ((hl.places_of_ne hxk).trans_eq hz))
      · by_cases hxk : x = ko
        · have hle := hl.places_le x
          rwa [hxk, h0, if_pos rfl, Nat.zero_add, ← hxk] at hle
        · exact (hl.places_of_ne hxk).trans (hs.once x)
    cases h.listStep hf with
    | same hl =>
      refine ⟨fun x hx => hold x (places_of_same hl x ▸ hx), fun x => ?_⟩
      rw [places_of_same hl]
      exact hs.once x
    | birth hl hlive => exact hins hl (hs.not_on le_rfl) hlive
    | drop ko hk h1 hlive hl =>
      refine hins hl ?_ (hs.plain.1.stays h hf hlive).1
      by_contra hx
      exact absurd ((hd ko hk).koRef hx) (by omega)
  refine ⟨hs.plain.effect h hf, hncpu ▸ hs.ncpu, halive, honce, fun r hr => ?_, hfreed ▸ hs.zero,
    hfreed ▸ hs.nodup⟩
  obtain ⟨hlt, hdead⟩ := hs.gone r (hfreed ▸ hr)
  obtain hkin | ⟨heq, -⟩ := h.kin hf r.1
  · exact ⟨hlt.trans_le (h.born_le hf), hkin.1.trans hdead⟩
  · exact absurd heq hlt.ne

lemma Machine.CaughtUp.effect (hs : s.CaughtUp) (h : Effect K s s') (hf : .fault ∉ K)
    (hr : .ref ∉ K) : s'.CaughtUp := by
  have hold : ∀ x, s.places x ≠ 0 → (s'.obj x).koRef = 0 := fun x hx =>
    h.koRef_zero hf hr (hs.koRef hx)
  have hins : ∀ {ko}, Inserts ko s s' → (s'.obj ko).koRef = 0 → s'.CaughtUp := by
    refine fun {ko} hl h0 => .of_places fun x hx => ?_
    by_cases hxk : x = ko
    · exact hxk ▸ h0
    · exact hold x fun hz => hx (Nat.le_zero.mp ((hl.places_of_ne hxk).trans_eq hz))
  cases h.listStep hf with
  | same hl => exact .of_places fun x hx => hold x (places_of_same hl x ▸ hx)
  | birth hl _ h0 => exact hins hl h0
  | drop ko _ _ _ hl h0 => exact hins hl h0

/-- An object that has no reference and is on no list stays so. -/
lemma Effect.places_zero (h : Effect K s s') (hf : .fault ∉ K) (hx : x < s.born)
    (h0 : (s.obj x).koRef = 0) (hz : s.places x = 0) : s'.places x = 0 := by
  have hne : ∀ {ko}, Inserts ko s s' → x ≠ ko → s'.places x = 0 := fun hl hxk =>
    Nat.le_zero.mp ((hl.places_of_ne hxk).trans_eq hz)
  cases h.listStep hf with
  | same hl => rw [places_of_same hl, hz]
  | birth hl => exact hne hl hx.ne
  | drop ko _ h1 _ hl =>
    refine hne hl ?_
    rintro rfl
    omega

/-! ### Runs -/

/-- What holds while a step with changes of the kinds `K` is under way. -/
structure Collecting (K : Set Kind) (s : Machine) : Prop where
  collected : Collected s
  caughtUp : GivesUp K → s.CaughtUp

lemma Collecting.move (hs : Collecting K s) (hf : .fault ∉ K) (hr : GivesUp K → .ref ∉ K)
    (h : Move K s s') : Collecting K s' := by
  by_cases hg : GivesUp K
  · have hend : Collected s' ∧ s'.CaughtUp := by
      refine h.keeps (I := fun t => Collected t ∧ t.CaughtUp) (fun t t' he ht => ?_)
        ⟨hs.collected, hs.caughtUp hg⟩
      exact ⟨ht.1.effect he (by simpa using hf) fun _ _ => ht.2,
        ht.2.effect he (by simpa using hf) (by simpa using hr hg)⟩
    exact ⟨hend.1, fun _ => hend.2⟩
  · cases h with
    | effect he =>
      exact ⟨hs.collected.effect he hf fun ko hd => absurd (hs.collected.plain.givesUp hd) hg,
        fun hk => absurd hk hg⟩
    | halt hk => exact absurd (.inl hk) hg

lemma Collected.popGc (hs : Collected s) (hcpu : cpu < josNcpu) (hn : s.nextGc cpu = some ko) :
    Collected (s.popGc cpu) ∧ (s.popGc cpu).places ko = 0 ∧
      ∀ x, (s.popGc cpu).places x ≤ s.places x := by
  obtain ⟨l, hl⟩ : ∃ l, s.koGcList cpu = ko :: l := List.head?_eq_some_iff.mp hn
  have hself : (s.popGc cpu).koGcList cpu = l := by simp [Machine.popGc, hl]
  have hcount : ∀ x c, ((s.popGc cpu).koGcList c).count x ≤ (s.koGcList c).count x := by
    intro x c
    by_cases hc : c = cpu
    · subst hc
      rw [hself, hl]
      exact (List.sublist_cons_self _ _).count_le x
    · exact (congrArg (List.count x) (update_of_ne hc ..)).le
  have hle : ∀ x, (s.popGc cpu).places x ≤ s.places x := fun x =>
    Finset.sum_le_sum fun c _ => hcount x c
  have hlt : (s.popGc cpu).places ko < s.places ko :=
    Finset.sum_lt_sum (fun c _ => hcount ko c) ⟨cpu, Finset.mem_range.mpr hcpu, by
      rw [hself, hl, List.count_cons_self]
      exact Nat.lt_succ_self _⟩
  refine ⟨⟨hs.plain, hs.ncpu, fun x hx => hs.alive x fun hz => hx ?_, fun x =>
    (hle x).trans (hs.once x), hs.gone, hs.zero, hs.nodup⟩, ?_, hle⟩
  · exact Nat.le_zero.mp ((hle x).trans_eq hz)
  · have := hs.once ko
    omega

lemma Collected.bury (hs : Collected s) (hoff : s.places ko = 0) (hl : s.live ko = true)
    (hr : (s.obj ko).koRef = 0) : Collected (s.bury ko) := by
  have hlive : ∀ x, x ≠ ko → (s.bury ko).live x = s.live x := fun x hx => by
    rw [Machine.live, bury_of_ne hx, Machine.live]
  refine ⟨hs.plain.bury ko, hs.ncpu, fun x hx => ?_, hs.once, fun r hr => ?_, fun r hr' => ?_, ?_⟩
  · have hne : x ≠ ko := by
      rintro rfl
      exact hx hoff
    rw [hlive x hne]
    exact hs.alive x hx
  · rcases List.mem_cons.mp hr with rfl | hr
    · exact ⟨hs.plain.1 ko hl, by simp [Machine.live, Machine.bury]⟩
    · obtain ⟨h1, h2⟩ := hs.gone r hr
      have hne : r.1 ≠ ko := by
        rintro rfl
        exact Bool.false_ne_true (h2.symm.trans hl)
      exact ⟨h1, (hlive _ hne).trans h2⟩
  · rcases List.mem_cons.mp hr' with rfl | hr'
    · exact hr
    · exact hs.zero r hr'
  · refine List.nodup_cons.mpr ⟨fun hmem => ?_, hs.nodup⟩
    obtain ⟨r, hr, heq⟩ := List.mem_map.mp hmem
    have hdead := (hs.gone r hr).2
    rw [heq] at hdead
    exact Bool.false_ne_true (hdead.symm.trans hl)

/-- A condition on the state in which a step is made: no page fault is served, and a processor is
halted, a share dropped, a removal completed, and a share or a processor collected only when the
collector has caught up. -/
def Event.CatchesUp (s : Machine) (e : Event) : Prop :=
  .fault ∉ e.act.kinds ∧ (.halt ∈ e.act.kinds → s.CaughtUp) ∧ (∀ _ ∈ e.removes s, s.CaughtUp) ∧
    ∀ ko ∈ e.collects s, (s.obj ko).koType = .share ∨ (s.obj ko).koType = .processor → s.CaughtUp
  deriving Decidable

lemma Collected.freed {u : Machine} (hs : Collected s) (hpop : s.places ko = 0)
    (hl : s.live ko = true) (hr : (s.obj ko).koRef = 0) (hcb : (gcCb ko).next s = some u)
    (hg : GivesUp (s.obj ko).gcKinds → s.CaughtUp) : Collected u ∧ Collected (u.bury ko) := by
  obtain ⟨-, hf, href, -⟩ := gcKinds_spec (s.obj ko)
  have hend : Collecting (s.obj ko).gcKinds u := Steps.keeps
    (I := Collecting (s.obj ko).gcKinds) (fun t t' he ht => ht.move hf (fun _ => href) he)
    (gcCb_moves hcb) ⟨hs, hg⟩
  obtain ⟨-, -, hoff, hlive⟩ : ko < u.born ∧ (u.obj ko).koRef = 0 ∧ u.places ko = 0 ∧
      u.live ko = true := by
    refine Steps.keeps (I := fun t => ko < t.born ∧ (t.obj ko).koRef = 0 ∧ t.places ko = 0 ∧
      t.live ko = true) (fun t t' hm ht => ?_) (gcCb_moves hcb) ⟨hs.plain.1 ko hl, hr, hpop, hl⟩
    refine hm.keeps (I := fun t => ko < t.born ∧ (t.obj ko).koRef = 0 ∧ t.places ko = 0 ∧
      t.live ko = true) (fun t t' he ht => ?_) ht
    have hf' : .fault ∉ (s.obj ko).gcKinds ∪ Halting := by simpa using hf
    obtain ⟨hb, h0, hz, hl⟩ := ht
    obtain hkin | ⟨heq, -⟩ := he.kin hf' ko
    · exact ⟨hb.trans_le (he.born_le hf'), he.koRef_zero hf' (by simpa using href) h0,
        he.places_zero hf' hb h0 hz, hkin.1.trans hl⟩
    · exact absurd heq hb.ne
  exact ⟨hend.collected, hend.collected.bury hoff hlive (gcCb_koRef hcb hr)⟩

lemma Collected.step (hs : Collected s) (hok : e.CatchesUp s) (h : e.step s = some s') :
    Collected s' := by
  obtain ⟨hf, hhalt, hremove, hcollect⟩ := hok
  obtain ⟨hcpu, hstep⟩ := Event.stepped h
  have hat : Collected (s.at e.cpu) :=
    ⟨hs.plain, hs.ncpu, hs.alive, hs.once, hs.gone, hs.zero, hs.nodup⟩
  have hbound : (s.at e.cpu).mem.cpu < josNcpu := hcpu.trans_le hs.ncpu
  refine hstep.keeps hat (fun hm => ?_) (fun ko hko t hdec => ?_)
    (fun t t' he ht => ht.effect he (by simp) fun ko hd => by simpa using ht.plain.permits hd)
    (fun ko hnext => (hat.popGc hbound hnext).1) fun ko hko hnext hl hr u hcb => ?_
  · obtain ⟨-, -, hgives, hh, -⟩ := Act.kinds_spec hf
    exact (Steps.keeps (I := Collecting {k | k ∈ e.act.kinds}) (fun t t' he ht =>
      ht.move hf (fun hg => (hh (hgives hg)).1) he) hm ⟨hat, fun hg => hhalt (hgives hg)⟩).collected
  · exact hat.effect (K := {.drop ko}) (.decref (.inl (Set.mem_singleton _)) hdec) (by simp)
      fun _ _ => hremove ko hko
  · obtain ⟨hpop, hoff, hle⟩ := hat.popGc hbound hnext
    obtain ⟨hu, hbury⟩ := hpop.freed hoff hl hr hcb fun hg => .of_places fun x hx =>
      (hcollect ko hko (gcKinds_givesUp hg)).koRef fun hz =>
        hx (Nat.le_zero.mp ((hle x).trans_eq hz))
    exact ⟨hu, fun _ => ⟨hbury.plain, hbury.ncpu, hbury.alive, hbury.once, hbury.gone, hbury.zero,
      hbury.nodup⟩⟩

/-- **Each object is collected once**, in every run in which references are given up only while
nothing that is referred to is on a list of the collector: an object is on one list at most, and
once, what is on a list has not been freed, an object is freed with a count of 0, and never
twice. -/
theorem objects_collected_once (h : kernel.Reach (fun s e => e.CatchesUp s) s) :
    (∀ ko, s.places ko ≤ 1) ∧ (∀ ko, s.places ko ≠ 0 → s.live ko = true) ∧
      (∀ r ∈ s.freed, r.2 = 0) ∧ (s.freed.map Prod.fst).Nodup := by
  have hinv : Collected s := by
    refine h.invariant (fun s hs => ?_) fun s e s' hI hok hs => hI.step hok hs
    obtain ⟨k, ncpu, ndev, hn, hb⟩ := boot_effects hs
    have hbare : Collected (bareMachine k ncpu ndev) := by
      have hnone : ∀ ko, (bareMachine k ncpu ndev).places ko = 0 := fun ko => by
        simp [Machine.places, bareMachine]
      exact ⟨plain_bare k ncpu ndev, hn, fun ko hk => absurd (hnone ko) hk,
        fun ko => (hnone ko).trans_le (Nat.zero_le 1), by simp [bareMachine],
        by simp [bareMachine], nodup_nil⟩
    exact Steps.keeps (R := Effect Building) (fun t _ he ht => Collected.effect ht he (by simp)
      fun ko hd => by simpa using ht.plain.permits hd) hb hbare
  exact ⟨hinv.once, hinv.alive, hinv.zero, hinv.nodup⟩

/-- A segment is made, taken out of its share and collected, and another one is made. -/
def collectSegment : List Event :=
  List.replicate 3 ⟨0, .gc⟩ ++
  [⟨0, .syscall (.segmentAlloc 1 4096 0)⟩, ⟨0, .gc⟩, ⟨0, .scan⟩, ⟨0, .syscall (.shareUnref 1 4)⟩,
    ⟨0, .scan⟩, ⟨0, .gc⟩, ⟨0, .syscall (.segmentAlloc 1 4096 0)⟩]

theorem objects_collected_once_segment :
    ∃ s, kernel.Reach (fun s e => e.CatchesUp s) s ∧ s.freed = [(3, 0)] ∧ s.places 4 = 1 ∧
      (∀ ko, s.places ko ≤ 1) ∧ (∀ ko, s.places ko ≠ 0 → s.live ko = true) ∧
      (∀ r ∈ s.freed, r.2 = 0) ∧ (s.freed.map Prod.fst).Nodup := by
  obtain ⟨s, hs, hf, hp⟩ := reach_of_bootRun 40 1 collectSegment
    (P := fun s => s.freed = [(3, 0)] ∧ s.places 4 = 1) (fun s e => e.CatchesUp s) _
    (fun _ _ => of_decide_eq_true) (by decide +kernel)
  exact ⟨s, hs, hf, hp, objects_collected_once hs⟩

/-- A segment that one CPU has just allocated loses its last reference on another CPU, before the
first one has looked at its list. -/
def unrefElsewhere : List Event :=
  [⟨0, .gc⟩, ⟨0, .gc⟩, ⟨0, .gc⟩, ⟨0, .syscall (.processorAlloc 1 1)⟩, ⟨0, .gc⟩,
    ⟨0, .syscall (.processorVector ⟨1, 4⟩ { ucAt := ⟨1, 3⟩, ucShare := [⟨1, 1⟩] })⟩,
    ⟨0, .syscall (.segmentAlloc 1 4096 0)⟩, ⟨1, .syscall (.shareUnref 1 5)⟩, ⟨1, .scan⟩]

/-- The segment is on the lists of both CPUs. -/
theorem object_on_two_lists :
    ∃ s ko, kernel.Reachable s ∧ ko ∈ s.koGcList 0 ∧ ko ∈ s.koGcList 1 := by
  obtain ⟨s, hs, h0, h1⟩ := reachable_of_bootRun 60 2 unrefElsewhere
    (P := fun s => 4 ∈ s.koGcList 0 ∧ 4 ∈ s.koGcList 1) (by decide +kernel)
  exact ⟨s, 4, hs, h0, h1⟩

end Corey.Kern
