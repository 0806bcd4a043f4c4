import Corey.Kern.Lifetime
import Corey.Kern.HashMap

/-!
Looking objects up.

An object in a share is given out only if it has the type that is asked for. A share that is
asked for through itself is given out as it is.
-/

namespace Corey.Kern

open Corey.Comp Corey.Mem

variable {s s' t : Machine} {V α : Type}

lemma kin_refl (o : Kobject) : Kin o o := ⟨rfl, rfl, rfl⟩

/-! ### What a lookup changes -/

section

variable {β γ : Type} {g : Kobject → β} {k : Machine → γ} {m : KM α}

lemma Same.after (h : Same g k s t) (hm : Steps (Same g k) m) : m.Leaves (Same g k s) t :=
  hm.wp_keeps (fun _ _ hR hI => hI.trans hR) h

lemma Same.ok (h : Same g k s t) (hm : Steps (Same g k) m) :
    wp m (fun _ u => Same g k s u) .any t := wp_weaken (h.after hm) fun _ _ => id

end

/-- What the machine knows of its processors, and how many objects there are. -/
def Machine.sched (s : Machine) : (ℕ → Option Kobj) × (ℕ → Bool) × ℕ × ℕ :=
  (s.processors, s.processorFree, s.ncpu, s.born)

/-- Objects change in nothing but the shares among them, and arrays not at all. -/
abbrev Looks : Machine → Machine → Prop :=
  Same (fun o => { o with sh := {} }) fun s => (s.darray, s.atRange, s.sched)

namespace Looks

lemma refl (s : Machine) : Looks s s := Same.refl s

lemma kin (h : Looks s s') (p : Kobj) : Kin (s.obj p) (s'.obj p) :=
  .of_head (congrArg Kobject.head (h.obj p) :)

lemma ps (h : Looks s s') (p : Kobj) : (s'.obj p).ps = (s.obj p).ps :=
  (congrArg Kobject.ps (h.obj p) :)

lemma koRef (h : Looks s s') (p : Kobj) : (s'.obj p).koRef = (s.obj p).koRef :=
  (congrArg Kobject.koRef (h.obj p) :)

lemma after {m : KM α} (h : Looks s t) (hm : Steps Looks m) : m.Leaves (Looks s) t :=
  Same.after h hm

end Looks

lemma modShare_looks (p : Kobj) (f : Share → Share) : Steps Looks (modShare p f) :=
  .change fun _ => .modObj rfl rfl

lemma onForest_looks (m : Forest.ForestM TreeId α) : Steps Looks (onForest m) :=
  .of_rel fun _ _ => .of_objects rfl rfl

lemma onShareMap_looks (p : Kobj) (m : MapM TreeId Blob α) : Steps Looks (onShareMap p m) :=
  .of_rel fun s _ => by
  have hobj : ∀ r : Map Blob × Forest TreeId, Looks s (Machine.modObj p
      (fun o => { o with sh := { o.sh with shKobjectMap := r.1 } }) { s with forest := r.2 }) :=
    fun r => .trans (show Looks s { s with forest := r.2 } from .of_objects rfl rfl)
      (.modObj rfl rfl)
  exact hobj _

lemma shareBlobAlloc_looks (sh : Kobj) : Steps Looks (shareBlobAlloc sh) :=
  .bind (.of_quiet fun _ => rfl) fun _ => .derefAs fun _ =>
    .join (.derefAs fun _ => .bind (onForest_looks _) fun _ =>
      .seq (onForest_looks _) (modShare_looks _ _)) fun _ =>
      .derefAs fun _ => .bind (.need _ _) fun _ =>
        .seq (modShare_looks _ _) (.pure _)

lemma Pushes.looks {a : ShareAction} (h : Pushes a s s') : Looks s s' := by
  cases h with
  | stops => exact .refl s
  | one _ _ _ _ => exact .of_objects rfl rfl

lemma pushAction_looks (a : ShareAction) : Steps Looks (pushAction a) :=
  .of_rel fun s _ => (pushAction_pushes a s).looks

lemma shareCoObj_looks (sh : Kobj) (id : ℕ) (type : Option KobjType) :
    Steps Looks (shareCoObj sh id type) :=
  .derefAs fun _ => .bind (onShareMap_looks _ _) fun _ =>
    .bind (getInfo_quiet _ _) fun _ => .deref fun _ =>
      .ite (.raise _) <| .bind (shareBlobAlloc_looks _) fun _ => .seq (modShare_looks _ _) <|
        .seq (pushAction_looks _) (.pure _)

lemma hashGet_quiet (key : ℕ) (t : Hashtable V) : (hashGet key t).2 = t := by
  refine state_of_wp (I := (· = t)) ?_
  simp only [hashGet, hashFind, wp_rules]
  refine ⟨fun _ => trivial, fun _ => ?_⟩
  cases getProbe t key t.capacity 0 with
  | none => exact rfl
  | some i => exact ⟨fun _ _ => rfl, fun _ => rfl⟩

lemma sharemapGet_looks (ps : Kobj) (id : ℕ) : Steps Looks (sharemapGet ps id) :=
  .derefAs fun _ => .of_rel fun s _ => by
    have hobj : Looks s (s.modObj ps fun o => { o with ps := { o.ps with psSharemap :=
        { o.ps.psSharemap with map := { o.ps.psSharemap.map with
          table := (hashGet id (s.obj ps).ps.psSharemap.map.table).2 } } } }) :=
      .modObj (by rw [hashGet_quiet]) rfl
    exact hobj

lemma processorCoObj_looks (ps : Kobj) (oref : SobjRef) (type : Option KobjType) :
    Steps Looks (processorCoObj ps oref type) :=
  .bind (sharemapGet_looks _ _) fun _ => .ite (.pure _) (shareCoObj_looks _ _ _)

/-! ### What an allocation changes -/

lemma pageAlloc_cpu (pid : ℕ) (m : Memory) : (pageAlloc pid m).2.cpu = m.cpu := by
  refine state_of_wp (I := fun m' : Memory => m'.cpu = m.cpu) ?_
  simp only [pageAlloc, wp_bind, wp_state, wp_change]
  by_cases hdeny : m.deny m.calls = true
  · rw [if_pos hdeny]
    exact rfl
  · rw [if_neg hdeny]
    rcases pickNode m _ with _ | _ | n
    · exact rfl
    · exact rfl
    · simp only [wp_bind, wp_need, wp_change, wp_require, wp_pure]
      exact ⟨fun _ _ => ⟨fun _ => rfl, fun _ => rfl⟩, fun _ => trivial⟩

lemma wp_takePage_cpu (pid : ℕ) (f : Forest TreeId) :
    wp (Forest.takePage pid) (fun _ f' => f'.mem.cpu = f.mem.cpu) .any f := by
  have hmem := pageAlloc_cpu pid f.mem
  simp only [Forest.takePage, Forest.onMem, wp_rules, wp_zoom]
  simp only [wp]
  rcases hp : pageAlloc pid f.mem with ⟨_ | _ | _, m⟩ <;> rw [hp] at hmem
  · exact hmem
  · trivial
  · trivial

structure Bears (t : KobjType) (pid : ℕ) (s s' : Machine) : Prop where
  obj : ∃ id p, s'.obj = Function.update s.obj s.born
    { live := true, koId := id, koType := t, koPid := pid, page := p }
  darray : s'.darray = s.darray
  cpu : s'.mem.cpu = s.mem.cpu
  sched : s'.sched = (s.processors, s.processorFree, s.ncpu, s.born + 1)

lemma kobjectAlloc_bears (t : KobjType) (pid : ℕ) (s : Machine) :
    wp (kobjectAlloc t pid) (fun a s' => a = s.born ∧ Bears t pid s s')
      ⟨fun _ s' => ∃ f, s' = { s with forest := f }, fun _ _ => True⟩ s := by
  simp only [kobjectAlloc, idAlloc, bear, wp_rules, wp_onForest, wp_archCpu]
  refine wp_mono (wp_takePage_cpu pid s.forest) (fun p f hcpu => ⟨fun _ => ?_, fun _ => trivial⟩)
    fun _ f _ => ⟨f, rfl⟩
  exact ⟨trivial, ⟨_, _, rfl⟩, rfl, hcpu, rfl⟩

/-! ### By type -/

lemma shareCoObj_type (sh : Kobj) (id : ℕ) (t : KobjType) (s : Machine) :
    wp (shareCoObj sh id (some t)) (fun ko u => (u.obj ko).koType = t) .any s := by
  simp only [shareCoObj, getInfo, wp_bind, wp_derefAs]
  refine ⟨fun _ _ => ?_, fun _ _ => trivial, fun _ => trivial⟩
  refine wp_any_of fun sb0 u => ?_
  simp only [wp_rules, wp_deref]
  refine ⟨fun _ _ => ⟨fun _ => ⟨fun _ => trivial, fun hok => ?_⟩, fun _ => trivial⟩,
    fun _ _ => trivial, fun _ => trivial⟩
  refine wp_weaken ((Looks.refl u).after (shareBlobAlloc_looks sh)) fun sb1 v hv => ?_
  refine wp_weaken (hv.after (modShare_looks _ _)) fun _ v hv => ?_
  refine wp_weaken (hv.after (pushAction_looks _)) fun _ v hv => ?_
  rw [(hv.kin _).2.2]
  simpa [typeOk, eq_comm] using hok

lemma hashGet_entry {t t' : Hashtable V} {key : ℕ} {v : V}
    (h : hashGet key t = (.ok v, t')) : t' = t ∧ ∃ i < t.capacity, (t.ent i).val = some v := by
  have hwp : wp (hashGet key) (fun v t' => t' = t ∧ ∃ i < t.capacity, (t.ent i).val = some v)
      .any t := by
    simp only [hashGet, hashFind, wp_rules]
    refine ⟨fun _ => trivial, fun _ => ?_⟩
    rcases hp : getProbe t key t.capacity 0 with _ | j
    · trivial
    · exact ⟨fun v hv => ⟨rfl, j, (getProbe_key _ _ le_rfl hp).1, hv⟩, fun _ => trivial⟩
  have hend := wp_ok hwp h
  exact hend

/-- What the share map of a processor holds are shares. -/
def HoldsShares (s : Machine) (ps : Kobj) : Prop :=
  ∀ i < (s.obj ps).ps.psSharemap.map.table.capacity, ∀ sh,
    ((s.obj ps).ps.psSharemap.map.table.ent i).val = some sh → (s.obj sh).koType = .share

lemma sharemapGet_type {ps sh : Kobj} {id : ℕ} (hs : HoldsShares s ps)
    (h : sharemapGet ps id s = (.ok sh, s')) : (s'.obj sh).koType = .share := by
  have hwp : wp (sharemapGet ps id) (fun sh u => (u.obj sh).koType = .share) .any s := by
    simp only [sharemapGet, onSharemap, mapGet, onTable, wp_bind, wp_derefAs_any, wp_zoom]
    intro _ _
    simp only [wp]
    rcases hg : hashGet id (s.obj ps).ps.psSharemap.map.table with ⟨v | _ | _, t⟩
    · obtain ⟨-, i, hi, hv⟩ := hashGet_entry hg
      exact (kin_modObj _ _ (kin_refl _)).2.2.trans (hs i hi v hv)
    · trivial
    · trivial
  have hend := wp_ok hwp h
  exact hend

/-- **Lookup is type safe** except for a reference to a share through itself: whatever type is
asked for, the share is returned. -/
theorem lookup_type_safe_iff (ps : Kobj) (oref : SobjRef) (t : KobjType)
    (hs : HoldsShares s ps) :
    (∀ ko s', sharemapCoObj ps oref (some t) s = (.ok ko, s') → (s'.obj ko).koType = t) ↔
      oref.share ≠ oref.object ∨ t = .share ∨
        ∀ sh s', sharemapGet ps oref.share s ≠ (.ok sh, s') := by
  constructor
  · intro h
    by_contra hno
    push Not at hno
    obtain ⟨heq, hne, sh, s', hget⟩ := hno
    have hco : sharemapCoObj ps oref (some t) s = (.ok sh, s') := by
      show Comp.bind (sharemapGet ps oref.share) _ s = _
      simp only [Comp.bind, hget, if_pos heq]
      rfl
    exact hne ((h sh s' hco).symm.trans (sharemapGet_type hs hget))
  · intro h ko s' hco
    have hwp : wp (sharemapCoObj ps oref (some t)) (fun ko u => (u.obj ko).koType = t)
        Exits.any s := by
      simp only [sharemapCoObj, wp_bind]
      simp only [wp]
      rcases hget : sharemapGet ps oref.share s with ⟨sh | _ | _, u⟩
      · dsimp only
        split_ifs with heq
        · rcases h with h | rfl | h
          · exact absurd heq h
          · exact sharemapGet_type hs hget
          · exact absurd hget (h sh u)
        · exact shareCoObj_type sh oref.object t u
      · trivial
      · trivial
    have hend := wp_ok hwp hco
    exact hend

instance (s : Machine) (ps : Kobj) : Decidable (HoldsShares s ps) :=
  decidable_of_iff (∀ i < (s.obj ps).ps.psSharemap.map.table.capacity,
      ∀ sh ∈ ((s.obj ps).ps.psSharemap.map.table.ent i).val, (s.obj sh).koType = .share) Iff.rfl

/-- The boot processor looks up its address tree in the boot share. -/
theorem lookup_type_safe_iff_boot :
    ∃ s, kernel.Reachable s ∧ HoldsShares s 1 ∧
      ((∀ ko s', sharemapCoObj 1 ⟨1, 3⟩ (some .addressTree) s = (.ok ko, s') →
        (s'.obj ko).koType = .addressTree) ↔
        (1 : ℕ) ≠ 3 ∨ KobjType.addressTree = .share ∨
          ∀ sh s', sharemapGet 1 1 s ≠ (.ok sh, s')) := by
  obtain ⟨s, hs, hshares⟩ := reachable_of_bootRun 40 1 [] (P := (HoldsShares · 1))
    (by decide +kernel)
  exact ⟨s, hs, hshares, lookup_type_safe_iff 1 ⟨1, 3⟩ .addressTree hshares⟩

/-- Asked for a segment, the boot processor gets the boot share. -/
theorem lookup_returns_share_as_segment :
    ∃ s ko s', kernel.Reachable s ∧ HoldsShares s 1 ∧
      sharemapCoObj 1 ⟨1, 1⟩ (some .segment) s = (.ok ko, s') ∧ (s'.obj ko).koType = .share := by
  obtain ⟨s, hs, hshares, ⟨ko, s'⟩, hr, ht⟩ := reachable_of_bootRun 40 1 [] (P := fun s =>
    HoldsShares s 1 ∧ ∃ r ∈ (sharemapCoObj 1 ⟨1, 1⟩ (some .segment)).result s,
      (r.2.obj r.1).koType = .share) (by decide +kernel)
  exact ⟨s, ko, s', hs, hshares, result_eq_some.mp hr, ht⟩

end Corey.Kern
