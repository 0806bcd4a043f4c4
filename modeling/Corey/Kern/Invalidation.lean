import Corey.Kern.Collection

/-!
What the invalidation of mappings leaves alone (`kern/atmap.c`, `kern/at.c`).

A mapping that is invalidated leaves the list of what it maps, the page tables of its tree and
the tree's own record of it, and the tree gives up the reference its lookup cache holds.
-/

namespace Corey.Kern

open Function Corey.Comp Corey.Mem
open Relation (ReflTransGen)

variable {s s' t : Machine} {α : Type}

/-- Of an object only the count has changed, and what an invalidation clears. -/
structure Spared (o o' : Kobject) : Prop where
  rest : { o' with koRef := o.koRef, sg := o.sg, tree := o.tree } = o
  tree : { o'.tree with
    atPgmap := o.tree.atPgmap, atMapList := o.tree.atMapList, addrmap := o.tree.addrmap
    atObj := o.tree.atObj } = o.tree

structure Spares (s s' : Machine) : Prop where
  obj : ∀ p, Spared (s.obj p) (s'.obj p)
  rest : { s' with obj := s.obj, koGcList := s.koGcList } = s

/-- Only lookup caches give up references, and they are only emptied. -/
structure Flushes (s s' : Machine) : Prop extends Spares s s' where
  cached : ∀ q, s'.Cached q → s.Cached q
  refs : ∀ q, ¬ s.Cached q → (s'.obj q).koRef = (s.obj q).koRef

namespace Spared

variable {o o' o'' : Kobject}

lemma refl (o : Kobject) : Spared o o := ⟨rfl, rfl⟩

lemma trans (h : Spared o o') (h' : Spared o' o'') : Spared o o'' :=
  ⟨(congrArg (fun x : Kobject => { x with koRef := o.koRef, sg := o.sg, tree := o.tree })
      h'.rest).trans h.rest,
    (congrArg (fun x : AddressTree => { x with
      atPgmap := o.tree.atPgmap, atMapList := o.tree.atMapList, addrmap := o.tree.addrmap
      atObj := o.tree.atObj }) h'.tree).trans h.tree⟩

lemma ps (h : Spared o o') : o'.ps = o.ps := by rw [← h.rest]

end Spared

namespace Spares

lemma refl (s : Machine) : Spares s s := ⟨fun _ => .refl _, rfl⟩

lemma modObj {p : Kobj} {f : Kobject → Kobject} (h : Spared (s.obj p) (f (s.obj p))) :
    Spares s (s.modObj p f) :=
  ⟨forall_modObj (P := fun q => Spared (s.obj q)) h fun _ => .refl _, rfl⟩

lemma of_decrefs {ko : Kobj} (h : Decrefs ko s s') : Spares s s' := by
  cases h with
  | stops => exact .refl s
  | one _ => exact .modObj ⟨rfl, rfl⟩
  | last _ _ cpu =>
    have hmod : Spares s (s.modObj ko fun o => { o with koRef := o.koRef - 1 }) :=
      .modObj ⟨rfl, rfl⟩
    exact ⟨hmod.obj, rfl⟩

end Spares

lemma cached_modObj {p q : Kobj} {f : Kobject → Kobject}
    (h : (f (s.obj p)).tree.atObj = (s.obj p).tree.atObj) (hq : (s.modObj p f).Cached q) :
    s.Cached q := by
  obtain ⟨a, h1, h2⟩ := hq
  have ha := modObj_eq (g := fun o => o.tree.atObj) h a
  rw [ha] at h1 h2
  exact ⟨a, h1, h2⟩

lemma Flushes.modObj {p : Kobj} {f : Kobject → Kobject} (h : Spared (s.obj p) (f (s.obj p)))
    (hr : (f (s.obj p)).koRef = (s.obj p).koRef)
    (hc : (f (s.obj p)).tree.atObj = (s.obj p).tree.atObj) : Flushes s (s.modObj p f) :=
  ⟨.modObj h, fun _ => cached_modObj hc, fun q _ => modObj_eq (g := Kobject.koRef) hr q⟩

lemma flushes_of_decrefs {a : Kobj} (hc : (s.obj a).tree.atObj.ref.object ≠ 0)
    (h : Decrefs (s.obj a).tree.atObj.ko s t) :
    Flushes s (t.modObj a fun o => { o with tree := { o.tree with atObj := { o.tree.atObj with
      ref := { o.tree.atObj.ref with object := 0 } } } }) := by
  have hs : Spares s t := .of_decrefs h
  have hcache : ∀ p, (t.obj p).tree.atObj = (s.obj p).tree.atObj := by
    intro p
    rcases h with ⟨⟩ | ⟨⟩ | ⟨⟩
    · rfl
    · exact modObj_eq (g := fun o => o.tree.atObj) rfl p
    · exact modObj_eq (s := s) (g := fun o => o.tree.atObj)
        (f := fun o => { o with koRef := o.koRef - 1 }) rfl p
  have hrefs : ∀ q, q ≠ (s.obj a).tree.atObj.ko → (t.obj q).koRef = (s.obj q).koRef := by
    intro q hq
    rcases h with ⟨⟩ | ⟨⟩ | ⟨⟩
    · rfl
    · rw [modObj_of_ne hq]
    · exact congrArg _ (update_of_ne hq _ _)
  refine ⟨⟨fun p => ?_, hs.rest⟩, fun q hq => ?_, fun q hq => ?_⟩
  · exact forall_modObj (P := fun q => Spared (s.obj q)) ((hs.obj a).trans ⟨rfl, rfl⟩) hs.obj p
  · obtain ⟨p, h1, h2⟩ := hq
    by_cases hp : p = a
    · subst hp
      simp at h1
    · rw [modObj_of_ne hp, hcache] at h1 h2
      exact ⟨p, h1, h2⟩
  · have hne : q ≠ (s.obj a).tree.atObj.ko := fun heq => hq ⟨a, hc, heq.symm⟩
    rw [modObj_eq (g := Kobject.koRef) rfl q]
    exact hrefs q hne

/-! ### The functions -/

lemma kobjectDecref_spares (ko : Kobj) : Steps Spares (kobjectDecref ko) :=
  .of_rel fun s _ => .of_decrefs (kobjectDecref_decrefs ko s)

lemma modTree_flushes {a : Kobj} {f : AddressTree → AddressTree}
    (h : ∀ t, { f t with
      atPgmap := t.atPgmap, atMapList := t.atMapList, addrmap := t.addrmap } = t) :
    Steps Flushes (modTree a f) :=
  .change fun s => by
    have hc := congrArg AddressTree.atObj (h (s.obj a).tree)
    exact .modObj ⟨rfl, congrArg (fun t : AddressTree => { t with
      atObj := (s.obj a).tree.atObj }) (h _)⟩ rfl hc

lemma amlRemove_flushes (ko : Kobj) (r : AmRef) : Steps Flushes (amlRemove ko r) :=
  .bind (amlGetList_quiet ko) fun _ => .change fun s => by
    refine .modObj ?_ ?_ ?_ <;> split <;> first | rfl | exact ⟨rfl, rfl⟩

lemma kobjCacheFlush_flushes (a : Kobj) : Steps Flushes (kobjCacheFlush a) := by
  refine (kobjCacheFlush_errless a).steps fun s => ?_
  simp only [kobjCacheFlush, wp_rules, wp_derefAs_any]
  refine fun _ _ => ⟨fun hc => ?_, fun _ => ⟨.refl s, fun _ => id, fun _ _ => rfl⟩⟩
  have hd := kobjectDecref_decrefs (s.obj a).tree.atObj.ko s
  simp only [wp]
  rcases hk : kobjectDecref (s.obj a).tree.atObj.ko s with ⟨_ | _ | _, t⟩ <;> rw [hk] at hd
  · exact flushes_of_decrefs hc hd
  · trivial
  · trivial

lemma atTlbflushOthers_flushes (a : Kobj) : Steps Flushes (atTlbflushOthers a) :=
  .derefAs fun _ => .ite (.forEach (fun _ => .bind (getAm_quiet _) fun _ =>
    .derefAs fun _ => .require _) _) (.pure _)

lemma atInvalidateRange_flushes (a : Kobj) (first last : ℕ) :
    Steps Flushes (atInvalidateRange a first last) :=
  .derefAs fun _ => .seq (.require _) <| .bind (.need _ _) fun _ =>
    .bind .state fun _ => .ite (.halt _) (modTree_flushes fun _ => rfl)

lemma atInvalidateAddrmap_flushes (a : Kobj) (r : AmRef) :
    Steps Flushes (atInvalidateAddrmap a r) :=
  .seq (kobjCacheFlush_flushes _) <| .bind (getAm_quiet _) fun _ => .ite
    (.seq (atTlbflushOthers_flushes _) <| .seq (atInvalidateRange_flushes _ _ _) <|
      modTree_flushes fun _ => rfl) (.pure _)

lemma amlLoop_flushes (ko : Kobj) (sel : AddressMapping → Bool) :
    Steps Flushes (amlLoop ko sel) :=
  .bind (amlGetList_quiet _) fun _ => .forEach (fun _ => .bind (getAm_quiet _) fun _ =>
    .seq (.require _) <| .ite
      (.seq (amlRemove_flushes _ _) (atInvalidateAddrmap_flushes _ _)) (.pure _)) _

section

variable {R : Machine → Machine → Prop} (hR : ∀ s s', Flushes s s' → R s s')
  {haltPs : Kobj → KM Bool} {ps : Kobj} (hh : Steps R (haltPs ps))

include hR hh in
lemma shareScopeChange_flushes (sh : Kobj) : Steps R (shareScopeChange haltPs sh ps) := by
  have hscope : ∀ ko id, Steps R (scopeCb haltPs ko id ps) := fun ko id =>
    .bind (deref_quiet _) fun o => by
      cases o.koType with
      | segment =>
        exact .derefAs fun _ => (amlLoop_flushes _ _).mono hR
      | addressTree =>
        exact .seq ((kobjCacheFlush_flushes _).mono hR) <|
          .derefAs fun _ => .ite ((amlLoop_flushes _ _).mono hR) <|
            .derefAs fun _ =>
              .ite (.bind hh fun _ => .pure _) (.pure _)
      | processor => exact .pure _
      | share => exact .pure _
      | device => exact .pure _
  exact .derefAs fun _ =>
    .bind (.derefAs fun _ => .pure _) fun _ => .forEach (fun _ => hscope _ _) _

end

end Corey.Kern
