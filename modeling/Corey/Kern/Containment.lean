import Corey.Kern.Membership
import Corey.Kern.ShareSet

/-!
Shares in shares.

A share is put into another one only when it is made, and then into one that is older. Shares that
hold shares therefore form a forest, whatever is dropped and imported again later.
-/

namespace Corey.Kern

open Function Corey.Comp Corey.Mem

variable {s s' t u : Machine} {sh ko ps : Kobj} {α : Type}

/-- The share `p` holds the object `k`. -/
def Machine.Contains (s : Machine) (p k : Kobj) : Prop :=
  ∃ e ∈ (s.obj p).sh.shKobjectMap.table.toList, ((s.obj p).sh.info e.2).siKo = k

instance (s : Machine) (p k : Kobj) : Decidable (s.Contains p k) := by
  unfold Machine.Contains
  infer_instance

/-- The processor `p` can name the share `k`. -/
def Machine.Knows (s : Machine) (p k : Kobj) : Prop :=
  ∃ e ∈ (s.obj p).ps.psSharemap.map.table.toList, e.2 = k

/-! ### What may become of the members -/

/-- The same object, or what is left of it. -/
def Remains (o o' : Kobject) : Prop := (o'.live = true → o.live = true) ∧ o'.koType = o.koType

lemma Kin.remains {o o' : Kobject} (h : Kin o o') : Remains o o' := ⟨fun hl => h.1 ▸ hl, h.2.2⟩

/-- Objects may leave shares, and shares the processors that know them. An object comes into a share
only if `C` allows it. -/
structure Moves (C : Kobj → Kobj → Prop) (s s' : Machine) : Prop where
  kin : ∀ p, Remains (s.obj p) (s'.obj p)
  born : s'.born = s.born
  contains : ∀ p k, s'.Contains p k → s.Contains p k ∨ C p k
  knows : ∀ p k, s'.Knows p k → s.Knows p k

/-- No object comes into a share. -/
abbrev Thins : Machine → Machine → Prop := Moves fun _ _ => False

/-- The object `ko` may have come into the share `sh`. -/
abbrev Imports (sh ko : Kobj) : Machine → Machine → Prop := Moves fun p k => p = sh ∧ k = ko

/-- The head of an object, and its tables. -/
def Kobject.tables (o : Kobject) :
    (Bool × ℕ × KobjType) × Map Blob × (Blob → ShareInfo) × Sharemap :=
  (o.head, o.sh.shKobjectMap, o.sh.info, o.ps.psSharemap)

abbrev SameTablesOf : Machine → Machine → Prop := Same Kobject.tables Machine.born

variable {C : Kobj → Kobj → Prop} {p : Kobj} {f : Processor → Processor} {m : KM α} {b : Blob}
  {type : KobjType}

namespace Moves

lemma refl (s : Machine) : Moves C s s :=
  ⟨fun _ => ⟨id, rfl⟩, rfl, fun _ _ => .inl, fun _ _ => id⟩

lemma trans (h : Moves C s t) (h' : Moves C t u) : Moves C s u where
  kin p := ⟨(h.kin p).1 ∘ (h'.kin p).1, (h'.kin p).2.trans (h.kin p).2⟩
  born := h'.born.trans h.born
  contains p k hk := (h'.contains p k hk).elim (h.contains p k) .inr
  knows p k hk := h.knows p k (h'.knows p k hk)

end Moves

namespace SameTablesOf

lemma kin (h : SameTablesOf s t) (p : Kobj) : Kin (s.obj p) (t.obj p) :=
  .of_head (congrArg (·.1) (h.obj p))

lemma info (h : SameTablesOf s t) (p : Kobj) : (t.obj p).sh.info = (s.obj p).sh.info :=
  congrArg (·.2.2.1) (h.obj p)

lemma moves (h : SameTablesOf s t) : Moves C s t := by
  refine ⟨fun p => (h.kin p).remains, h.rest, fun p k hk => .inl ?_, fun p k hk => ?_⟩
  · have hmap : (t.obj p).sh.shKobjectMap = _ := congrArg (·.2.1) (h.obj p)
    rwa [Machine.Contains, h.info, hmap] at hk
  · have hmap : (t.obj p).ps.psSharemap = _ := congrArg (·.2.2.2) (h.obj p)
    rwa [Machine.Knows, hmap] at hk

lemma of_spares (h : Spares s s') : SameTablesOf s s' :=
  ⟨fun p => by rw [← (h.obj p).rest]; rfl, by rw [← h.rest]⟩

end SameTablesOf

lemma contains_modShare {f : Share → Share} {k : Kobj}
    (h : (s.modObj sh fun o => { o with sh := f o.sh }).Contains p k) :
    s.Contains p k ∨ p = sh ∧ ∃ e ∈ (f (s.obj sh).sh).shKobjectMap.table.toList,
      ((f (s.obj sh).sh).info e.2).siKo = k := by
  by_cases hp : p = sh
  · subst hp
    rw [Machine.Contains, modObj_self] at h
    exact .inr ⟨rfl, h⟩
  · rw [Machine.Contains, modObj_of_ne hp] at h
    exact .inl h

lemma knows_modShare {f : Share → Share} {k : Kobj}
    (h : (s.modObj sh fun o => { o with sh := f o.sh }).Knows p k) : s.Knows p k := by
  by_cases hp : p = sh
  · subst hp
    rwa [Machine.Knows, modObj_self] at h
  · rwa [Machine.Knows, modObj_of_ne hp] at h

lemma contains_modProcessor {k : Kobj}
    (h : (s.modObj ps fun o => { o with ps := f o.ps }).Contains p k) : s.Contains p k := by
  by_cases hp : p = ps
  · subst hp
    rwa [Machine.Contains, modObj_self] at h
  · rwa [Machine.Contains, modObj_of_ne hp] at h

lemma knows_modProcessor {k : Kobj} (h : (s.modObj ps fun o => { o with ps := f o.ps }).Knows p k) :
    s.Knows p k ∨ p = ps ∧ ∃ e ∈ (f (s.obj ps).ps).psSharemap.map.table.toList, e.2 = k := by
  by_cases hp : p = ps
  · subst hp
    rw [Machine.Knows, modObj_self] at h
    exact .inr ⟨rfl, h⟩
  · rw [Machine.Knows, modObj_of_ne hp] at h
    exact .inl h

/-! ### Functions that leave the tables alone -/

lemma of_spares_same (h : Steps Spares m) : Steps SameTablesOf m :=
  h.mono fun _ _ => .of_spares

lemma modShare_same {f : Share → Share} (hm : ∀ x, (f x).shKobjectMap = x.shKobjectMap)
    (hi : ∀ x, (f x).info = x.info) : Steps SameTablesOf (modShare p f) :=
  .change fun _ => .modObj (by simp only [Kobject.tables, Kobject.head, hm, hi]) rfl

lemma modProcessor_same
    (h : ∀ x, (f x).psSharemap = x.psSharemap) : Steps SameTablesOf (modProcessor p f) :=
  .change fun _ => .modObj (by simp only [Kobject.tables, Kobject.head, h]) rfl

lemma modTree_same (p : Kobj) (f : AddressTree → AddressTree) : Steps SameTablesOf (modTree p f) :=
  .change fun _ => .modObj rfl rfl

lemma onForest_same (m : Forest.ForestM TreeId α) : Steps SameTablesOf (onForest m) :=
  .of_rel fun _ _ => .of_objects rfl rfl

lemma onArrays_same (m : DaM TreeId α) : Steps SameTablesOf (onArrays m) :=
  .of_rel fun _ _ => .of_objects rfl rfl

lemma kobjectIncref_same (ko : Kobj) : Steps SameTablesOf (kobjectIncref ko) :=
  .deref fun _ => .change fun _ => .modObj rfl rfl

lemma shareBlobAlloc_same (sh : Kobj) : Steps SameTablesOf (shareBlobAlloc sh) :=
  have hd : Steps SameTablesOf (derefAs .share sh) := derefAs_quiet _ _
  .bind (.of_quiet fun _ => rfl) fun _ => .bind hd fun _ =>
    .join (.bind hd fun _ => .bind (onForest_same _) fun _ => .seq (onForest_same _)
      (modShare_same (fun _ => rfl) fun _ => rfl)) fun _ =>
      .bind hd fun _ => .bind (.need _ _) fun _ =>
        .seq (modShare_same (fun _ => rfl) fun _ => rfl) (.pure _)

lemma shareBlobFree_same (sh : Kobj) (b : Blob) : Steps SameTablesOf (shareBlobFree sh b) :=
  .bind (.of_quiet fun _ => rfl) fun _ => .derefAs fun _ =>
    modShare_same (fun _ => rfl) fun _ => rfl

lemma Pushes.same {a : ShareAction} (h : Pushes a s s') : SameTablesOf s s' := by
  cases h with
  | stops => exact .refl s
  | one _ _ _ _ => exact .of_objects rfl rfl

lemma pushAction_same (a : ShareAction) : Steps SameTablesOf (pushAction a) :=
  .of_rel fun s _ => (pushAction_pushes a s).same

lemma processorStart_same (ps a : Kobj) (uc : UContext) :
    Steps SameTablesOf (processorStart ps a uc) :=
  .seq (.derefAs fun _ => modTree_same _ _) <|
    .seq (modProcessor_same fun _ => rfl) <| .bind (.of_quiet fun _ => rfl) fun _ =>
      .change fun _ => .of_objects rfl rfl

lemma SameTablesOf.after (h : SameTablesOf s t) (hm : Steps SameTablesOf m) :
    m.Leaves (SameTablesOf s) t := Same.after h hm

lemma Moves.after (h : Moves C s t) (hm : Steps SameTablesOf m) : m.Leaves (Moves C s) t :=
  hm.wp_keeps (fun _ _ hR hI => hI.trans hR.moves) h

/-! ### Looking up -/

lemma onShareMap_get (sh : Kobj) (id : ℕ) (s : Machine) :
    wp (onShareMap sh (mapGet id))
      (fun b t => t = s ∧ (id, b) ∈ (s.obj sh).sh.shKobjectMap.table.toList)
      (.both (· = s)) s := by
  have hself : Machine.modObj sh (fun o => { o with sh := { o.sh with shKobjectMap :=
      (s.obj sh).sh.shKobjectMap } }) s = s := by simp [Machine.modObj]
  simp only [onShareMap, mapGet, onTable, wp_zoom]
  refine wp_mono (hashGet_lists id _) (fun b t ht => ?_) fun _ t ht => ?_
  · obtain ⟨rfl, hmem⟩ := ht
    exact ⟨hself, hmem⟩
  · rw [show t = _ from ht]
    exact hself

lemma sharemapGet_knows (ps : Kobj) (id : ℕ) (s : Machine) :
    wp (sharemapGet ps id) (fun sh t => t = s ∧ s.Knows ps sh) (.both (· = s)) s := by
  have hself : Machine.modObj ps (fun o => { o with ps := { o.ps with psSharemap :=
      { o.ps.psSharemap with map := (s.obj ps).ps.psSharemap.map } } }) s = s := by
    simp [Machine.modObj]
  simp only [sharemapGet, onSharemap, mapGet, onTable, wp_bind, wp_derefAs_any, wp_zoom]
  intro _ _
  refine wp_mono (hashGet_lists id _) (fun sh t ht => ?_) fun _ t ht => ?_
  · obtain ⟨rfl, hmem⟩ := ht
    exact ⟨hself, _, hmem, rfl⟩
  · rw [show t = _ from ht]
    exact hself

lemma Moves.setInfo {i : ShareInfo} {X : Exits Errno Machine} (h : Moves C s t)
    (hi : i.siKo = ((t.obj sh).sh.info b).siKo ∨ C sh i.siKo) :
    wp (setInfo sh b i) (fun _ u => Moves C s u ∧ (u.obj sh).sh.info b = i) X t := by
  refine ⟨h.trans ⟨fun q => (kin_modObj sh q (kin_refl _)).remains, rfl, fun p k hk => ?_,
    fun _ _ => knows_modShare (f := fun x => { x with info := update x.info b i })⟩, ?_⟩
  · rcases contains_modShare (f := fun x => { x with info := update x.info b i }) hk with
      hk | ⟨rfl, e, he, hk⟩
    · exact .inl hk
    · dsimp only at he hk
      by_cases hb : e.2 = b
      · rw [hb, update_self] at hk
        exact hi.imp (fun hi => ⟨e, he, by rw [hb, ← hi, hk]⟩) fun hi => hk ▸ hi
      · rw [update_of_ne hb] at hk
        exact .inl ⟨e, he, hk⟩
  · rw [modObj_self]
    exact update_self _ _ _

lemma shareCoObj_thins (sh : Kobj) (id : ℕ) (type : Option KobjType) (s : Machine) :
    (shareCoObj sh id type).Leaves (Thins s) s := by
  simp only [shareCoObj, getInfo, wp_bind, wp_derefAs]
  refine ⟨fun _ _ => ?_, fun _ _ => trivial, fun _ => trivial⟩
  refine wp_mono (onShareMap_get sh id s) (fun b t ht => ?_) fun _ t ht => ?_
  swap
  · exact ht ▸ .refl _
  obtain ⟨rfl, -⟩ := ht
  simp only [wp_rules, wp_deref]
  refine ⟨fun _ _ => ⟨fun _ => ⟨fun _ => .refl t, fun _ => ?_⟩, fun _ => trivial⟩,
    fun _ _ => trivial, fun _ => trivial⟩
  refine wp_mono (SameTablesOf.after (.refl t) (shareBlobAlloc_same sh)) (fun sb1 u hu => ?_)
    fun _ _ hu => hu.moves
  have hsame : Thins t u := hu.moves
  refine wp_post (hsame.setInfo (.inl (by rw [hu.info]))) fun _ v hv => ?_
  exact hv.1.after (pushAction_same _)

lemma processorCoObj_thins (ps : Kobj) (oref : SobjRef) (type : Option KobjType) (s : Machine) :
    (processorCoObj ps oref type).Leaves (Thins s) s := by
  simp only [processorCoObj, sharemapCoObj, wp_bind]
  refine wp_mono (sharemapGet_knows ps oref.share s) (fun sh t ht => ?_) fun _ t ht => ?_
  · obtain ⟨rfl, -⟩ := ht
    rw [wp_ite]
    exact ⟨fun _ => .refl t, fun _ => shareCoObj_thins sh _ type t⟩
  · exact ht ▸ .refl _

/-! ### Removing and importing -/

lemma onShareMap_moves (r : Map Blob × Forest TreeId) (hr : ∀ e ∈ r.1.table.toList,
      e ∈ (s.obj sh).sh.shKobjectMap.table.toList ∨ C sh ((s.obj sh).sh.info e.2).siKo) :
    Moves C s (Machine.modObj sh (fun o => { o with sh := { o.sh with shKobjectMap := r.1 } })
      { s with forest := r.2 }) := by
  refine ⟨fun p => (kin_modObj (s := { s with forest := r.2 }) sh p (kin_refl _)).remains, rfl,
    fun p k hk => ?_, fun _ _ => knows_modShare (s := { s with forest := r.2 })
      (f := fun x => { x with shKobjectMap := r.1 })⟩
  rcases contains_modShare (s := { s with forest := r.2 })
    (f := fun x => { x with shKobjectMap := r.1 }) hk with hk | ⟨rfl, e, he, rfl⟩
  · exact .inl hk
  · exact (hr e he).imp_left fun hold => ⟨e, hold, rfl⟩

lemma mapErase_thins (sh : Kobj) (id : ℕ) (s : Machine) :
    (onShareMap sh (mapErase id)).Leaves (Thins s) s := by
  simp only [onShareMap, mapErase, onTable, wp_zoom]
  refine wp_mono (hashDel_lists id _) (fun _ t ht => onShareMap_moves
      ({ (s.obj sh).sh.shKobjectMap with table := t }, s.forest) fun e he => .inl (ht e he))
    (fun _ t ht => onShareMap_moves
      ({ (s.obj sh).sh.shKobjectMap with table := t }, s.forest) fun e he => .inl ?_)
  rwa [show t = _ from ht] at he

lemma shareRemoveObj_thins (sh : Kobj) (id : ℕ) (s : Machine) :
    (shareRemoveObj sh id).Leaves (Thins s) s := by
  rw [shareRemoveObj_eq, Leaves, wp_bind, wp_derefAs_any]
  intro _ _
  rw [wp_bind]
  refine wp_mono (onShareMap_get sh id s) (fun b t ht => ?_) fun _ t ht => ?_
  swap
  · exact ht ▸ .refl _
  obtain ⟨rfl, -⟩ := ht
  rw [wp_bind, getInfo, wp_bind, wp_derefAs_any]
  intro _ _
  rw [wp_pure, wp_bind]
  refine wp_post ((Moves.refl t : Thins t t).setInfo (.inl (less_siKo _))) fun _ v ht => ?_
  obtain ⟨hset, _⟩ := ht
  rw [wp_ite]
  refine ⟨fun _ => ?_, fun _ => hset⟩
  rw [wp_bind]
  refine wp_post (hset.after (shareBlobAlloc_same sh)) fun sb1 u hu => ?_
  rw [wp_bind, wp_attempt]
  refine wp_mono (mapErase_thins sh id u) (fun _ v hv => ?_) fun _ _ _ => trivial
  exact (hu.trans hv).after (pushAction_same _)

lemma mapPut_imports {id : ℕ} (hb : ((s.obj sh).sh.info b).siKo = ko) :
    (onShareMap sh (mapPut (mapBack sh) id b)).Leaves (Imports sh ko s) s := by
  simp only [onShareMap, wp_zoom]
  refine wp_mono (mapPut_lists (mapBack sh) id b _)
    (fun _ r hr => onShareMap_moves r fun e he => ?_)
    fun _ r hr => onShareMap_moves r fun e he => .inl ((hr e).mp he)
  rcases (hr e).mp he with rfl | hold
  · exact .inr ⟨rfl, hb⟩
  · exact .inl hold

/-- **Importing** puts the object into this share, or leaves everything as it was. -/
lemma shareImportObj_imports (sh ko : Kobj) (s : Machine) :
    (shareImportObj sh ko).Leaves (Imports sh ko s) s := by
  simp only [shareImportObj, wp_bind, wp_deref, wp_derefAs]
  refine ⟨fun _ => ⟨fun _ _ => ?_, fun _ _ => trivial, fun _ => trivial⟩, fun _ => trivial⟩
  rw [wp_ite]
  refine ⟨fun _ => .refl s, fun _ => ?_⟩
  rw [wp_bind]
  refine wp_post ((Moves.refl s).after (shareBlobAlloc_same sh)) fun b t ht => ?_
  rw [wp_bind]
  -- the blob stands for the object from here on, in the table or not
  refine wp_post (ht.setInfo (.inr ⟨rfl, rfl⟩)) fun _ u ht => ?_
  obtain ⟨hset, hb⟩ := ht
  rw [wp_bind, wp_attempt]
  refine wp_mono (onShareMap_get sh _ u) (fun b' v hv => ?_) fun _ v hv => ?_
  · obtain ⟨rfl, -⟩ := hv
    simp only [getInfo, wp_rules, wp_derefAs_any]
    intro _ _
    refine wp_post (hset.setInfo (.inl rfl)) fun _ w hw => ?_
    exact hw.1.after (shareBlobFree_same sh b)
  · obtain rfl : v = u := hv
    simp only [wp_bind, wp_onErr]
    refine wp_mono (mapPut_imports (by rw [hb])) (fun _ w hw => ?_) fun _ w hw => ?_
    · exact (hset.trans hw).after (kobjectIncref_same ko)
    · exact (hset.trans hw).after (shareBlobFree_same sh b)

/-! ### Shares of processors -/

lemma of_same_thins (h : Steps SameTablesOf m) : Steps Thins m :=
  h.mono fun _ _ => SameTablesOf.moves

lemma of_spares_thins (h : Steps Spares m) : Steps Thins m :=
  of_same_thins (of_spares_same h)

lemma of_flushes_thins (h : Steps Flushes m) : Steps Thins m :=
  of_spares_thins (h.mono fun _ _ => Flushes.toSpares)

lemma modProcessor_thins (h : ∀ x ∈ (f (s.obj ps).ps).psSharemap.map.table.toList,
      x ∈ (s.obj ps).ps.psSharemap.map.table.toList) :
    Thins s (s.modObj ps fun o => { o with ps := f o.ps }) := by
  refine ⟨fun q => (kin_modObj ps q (kin_refl _)).remains, rfl,
    fun _ _ hk => .inl (contains_modProcessor hk), fun p k hk => ?_⟩
  rcases knows_modProcessor hk with hk | ⟨rfl, e, he, hk⟩
  · exact hk
  · exact ⟨e, h e he, hk⟩

lemma onSharemap_thins {r : Map Kobj × Forest TreeId}
    (h : ∀ x ∈ r.1.table.toList, x ∈ (s.obj ps).ps.psSharemap.map.table.toList) :
    Thins s (Machine.modObj ps (fun o => { o with ps := { o.ps with psSharemap :=
      { o.ps.psSharemap with map := r.1 } } }) { s with forest := r.2 }) :=
  have hforest : SameTablesOf s { s with forest := r.2 } := .of_objects rfl rfl
  hforest.moves.trans (modProcessor_thins
    (f := fun x => { x with psSharemap := { x.psSharemap with map := r.1 } }) h)

lemma sharemapFree_thins (ps : Kobj) : Steps Thins (sharemapFree ps) := by
  refine .of_wp fun s => ?_
  rw [sharemapFree, onSharemap, wp_zoom]
  refine wp_mono (mapFree_quiet ps _) (fun _ y hy => onSharemap_thins fun x hx => ?_)
    fun _ y hy => onSharemap_thins fun x hx => ?_
  · rwa [show y.1 = _ from hy] at hx
  · rwa [show y.1 = _ from hy] at hx

lemma mapErase_sharemap_thins (ps : Kobj) (id : ℕ) :
    Steps Thins (onSharemap ps (mapErase id)) := by
  refine .of_wp fun s => ?_
  simp only [onSharemap, mapErase, onTable, wp_zoom]
  refine wp_mono (hashDel_lists id _)
    (fun _ t ht => onSharemap_thins (r := ({ (s.obj ps).ps.psSharemap.map with table := t },
      s.forest)) ht)
    (fun _ t ht => onSharemap_thins (r := ({ (s.obj ps).ps.psSharemap.map with table := t },
      s.forest)) fun x hx => ?_)
  rwa [show t = _ from ht] at hx

lemma sharemapClear_thins (ps : Kobj) : Steps Thins (sharemapClear noHalt ps) :=
  have hR : ∀ s s', Flushes s s' → Thins s s' := fun _ _ h =>
    (SameTablesOf.of_spares h.toSpares).moves
  .derefAs fun _ =>
    .seq (.forEach (fun _ => .seq (shareScopeChange_flushes hR (.halt _) _)
      (of_spares_thins (kobjectDecref_spares _))) _) <|
    .seq (sharemapFree_thins _) <| .change fun _ => modProcessor_thins
      (f := fun p => { p with psSharemap := { p.psSharemap with
        map := mapInit p.psSharemap.map.pid } }) fun x hx => absurd hx (toList_hashInit 0 x)

lemma processorHalt_thins (ps : Kobj) : Steps Thins (processorHalt ps) :=
  .derefAs fun _ => .bind (.of_quiet fun _ => rfl) fun _ => .ite
    (.seq (of_same_thins (modProcessor_same fun _ => rfl)) (.pure _)) <|
    .bind (.need _ _) fun _ => .seq (.derefAs fun _ =>
        .derefAs fun _ => .seq (.require _)
          (of_same_thins (modTree_same _ _))) <|
      .seq (of_same_thins (modProcessor_same fun _ => rfl)) <|
      .seq (sharemapClear_thins _) <|
      .seq (of_same_thins (.change fun _ => .of_objects rfl rfl)) <|
      .seq (of_same_thins (modProcessor_same fun _ => rfl)) (.pure _)

lemma sharemapRemove_thins (ps : Kobj) (id : ℕ) :
    Steps Thins (sharemapRemove processorHalt ps id) :=
  have hR : ∀ s s', Flushes s s' → Thins s s' := fun _ _ h =>
    (SameTablesOf.of_spares h.toSpares).moves
  .bind (.of_wp fun s => wp_mono (sharemapGet_knows ps id s) (fun _ _ h => h.1 ▸ .refl _)
      (fun _ _ h => h ▸ .refl _)) fun _ =>
    .bind (.attempt (mapErase_sharemap_thins _ _)) fun
      | .error _ => .halt _
      | .ok _ => .seq (shareScopeChange_flushes hR (processorHalt_thins _) _)
          (of_spares_thins (kobjectDecref_spares _))

/-! ### The invariant -/

/-- What is named is there, and a share that is held was made after the one that holds it, of
which there is only one. -/
structure Forested (s : Machine) : Prop where
  live : ∀ p, (s.obj p).live = true → p < s.born
  held : ∀ p k, s.Contains p k → k < s.born
  known : ∀ p k, s.Knows p k → k < s.born
  older : ∀ p c, s.Contains p c → (s.obj c).koType = .share → p < c
  one : ∀ p q c, s.Contains p c → s.Contains q c → (s.obj c).koType = .share → p = q

namespace Forested

/-- A share may come into one share only, if it is held by no other one and is younger than the one
it comes into. -/
lemma moves (h : Forested s) (ht : Moves C s t) (hC : ∀ p k, C p k → k < s.born ∧
      ((s.obj k).koType = .share → p < k ∧ ∀ q, ¬ s.Contains q k ∧ (C q k → q = p))) :
    Forested t where
  live p hp := ht.born ▸ h.live p ((ht.kin p).1 hp)
  held p k hk := ht.born ▸ (ht.contains p k hk).elim (h.held p k) fun hk => (hC p k hk).1
  known p k hk := ht.born ▸ h.known p k (ht.knows p k hk)
  older p c hc hs := by
    rw [(ht.kin c).2] at hs
    exact (ht.contains p c hc).elim (h.older p c · hs) fun hc => ((hC p c hc).2 hs).1
  one p q c hp hq hs := by
    rw [(ht.kin c).2] at hs
    rcases ht.contains p c hp with hp | hp <;> rcases ht.contains q c hq with hq | hq
    · exact h.one p q c hp hq hs
    · exact absurd hp (((hC q c hq).2 hs).2 p).1
    · exact absurd hq (((hC p c hp).2 hs).2 q).1
    · exact (((hC q c hq).2 hs).2 p).2 hp

lemma thins (h : Forested s) (ht : Thins s t) : Forested t := h.moves ht fun _ _ => False.elim

lemma imports (h : Forested s) (ht : Imports sh ko s t) (hko : ko < s.born)
    (hs : (s.obj ko).koType ≠ .share ∨ sh < ko ∧ ∀ p, ¬ s.Contains p ko) : Forested t := by
  refine h.moves ht ?_
  rintro _ _ ⟨rfl, rfl⟩
  refine ⟨hko, fun hshare => ?_⟩
  obtain ⟨hlt, hfree⟩ := hs.resolve_left (not_not.mpr hshare)
  exact ⟨hlt, fun q => ⟨hfree q, And.left⟩⟩

lemma of_thins (hm : ∀ s, m.Leaves (Thins s) s) : Keeps Forested m := fun s hs =>
  wp_mono (hm s) (fun _ _ ht => ⟨hs.thins ht, trivial⟩) fun _ _ ht => hs.thins ht

lemma of_steps (hm : Steps Thins m) : Keeps Forested m :=
  Gives.of_steps hm fun _ _ ht hs => hs.thins ht

lemma of_same (hm : Steps SameTablesOf m) : Keeps Forested m :=
  of_steps (of_same_thins hm)

lemma bears (h : Forested s) {pid : ℕ} (ht : Bears type pid s t) :
    Forested t ∧ (∀ p, ¬ t.Contains p s.born) ∧ (∀ p, ¬ t.Knows p s.born) ∧
      t.born = s.born + 1 ∧ (t.obj s.born).koType = type := by
  obtain ⟨id, page, hobj⟩ := ht.obj
  have hborn : t.born = s.born + 1 := congrArg (fun x => x.2.2.2) ht.sched
  have hnew : t.obj s.born = { live := true, koId := id, koType := type, koPid := pid
                               page := page } := by rw [hobj, update_self]
  have hold : ∀ p, p ≠ s.born → t.obj p = s.obj p := fun p hp => by
    rw [hobj, update_of_ne hp]
  have hcontains : ∀ p k, t.Contains p k → s.Contains p k := by
    intro p k hk
    by_cases hp : p = s.born
    · rw [Machine.Contains, hp, hnew] at hk
      obtain ⟨e, he, -⟩ := hk
      exact absurd he (toList_hashInit 0 e)
    · rwa [Machine.Contains, hold p hp] at hk
  have hknows : ∀ p k, t.Knows p k → s.Knows p k := by
    intro p k hk
    by_cases hp : p = s.born
    · rw [Machine.Knows, hp, hnew] at hk
      obtain ⟨e, he, -⟩ := hk
      exact absurd he (toList_hashInit 0 e)
    · rwa [Machine.Knows, hold p hp] at hk
  have hheld : ∀ p k, t.Contains p k → k < s.born := fun p k hk => h.held p k (hcontains p k hk)
  have htype : ∀ p k, t.Contains p k → (t.obj k).koType = (s.obj k).koType := fun p k hk => by
    rw [hold k (hheld p k hk).ne]
  refine ⟨⟨fun p hp => ?_, fun p k hk => ?_, fun p k hk => ?_, fun p c hc hs => ?_,
    fun p q c hp hq hs => ?_⟩, fun p hp => absurd (hheld p _ hp) (Nat.lt_irrefl _),
    fun p hp => absurd (h.known p _ (hknows p _ hp)) (Nat.lt_irrefl _), hborn, by rw [hnew]⟩
  · rw [hborn]
    by_cases hps : p = s.born
    · exact hps ▸ Nat.lt_succ_self _
    · exact Nat.lt_succ_of_lt (h.live p (hold p hps ▸ hp))
  · exact hborn ▸ Nat.lt_succ_of_lt (hheld p k hk)
  · exact hborn ▸ Nat.lt_succ_of_lt (h.known p k (hknows p k hk))
  · exact h.older p c (hcontains p c hc) (htype p c hc ▸ hs)
  · exact h.one p q c (hcontains p c hp) (hcontains q c hq) (htype p c hp ▸ hs)

end Forested

/-! ### New objects -/

/-- The newest object, of a type, which nobody holds or knows. -/
structure Newborn (type : KobjType) (ko : Kobj) (t : Machine) : Prop where
  free : ∀ p, ¬ t.Contains p ko
  unknown : ∀ p, ¬ t.Knows p ko
  newest : t.born = ko + 1
  koType : (t.obj ko).koType = type

lemma Newborn.thins (h : Newborn type ko s) (ht : Thins s t) : Newborn type ko t where
  free p hp := h.free p ((ht.contains p ko hp).resolve_right id)
  unknown p hp := h.unknown p (ht.knows p ko hp)
  newest := ht.born.trans h.newest
  koType := (ht.kin ko).2.trans h.koType

lemma Newborn.after {m : KM Kobj} {f : Kobj → KM Kobj}
    (hm : Gives (.both Forested) Forested (Newborn type) m)
    (hf : ∀ ko, Gives (.both fun t => Forested t ∧ Newborn type ko t)
      (fun t => Forested t ∧ Newborn type ko t) (fun k _ => k = ko) (f ko)) :
    Gives (.both Forested) Forested (Newborn type) (m >>= f) :=
  .bind_of hm fun ko t ht hnew => wp_mono (hf ko t ⟨ht, hnew⟩)
    (fun _ _ ⟨hu, hk⟩ => ⟨hu.1, hk ▸ hu.2⟩) fun _ _ hu => hu.1

lemma Newborn.of_steps (hm : Steps Thins m) : Keeps (fun t => Forested t ∧ Newborn type ko t) m :=
  Gives.of_steps hm fun _ _ ht hs => ⟨hs.1.thins ht, hs.2.thins ht⟩

lemma kobjectAlloc_gives (type : KobjType) (pid : ℕ) :
    Gives (.both Forested) Forested (Newborn type) (kobjectAlloc type pid) := fun s hs => by
  refine wp_mono (kobjectAlloc_bears type pid s) (fun ko t ht => ?_) fun _ t ht => ?_
  · obtain ⟨rfl, hbears⟩ := ht
    obtain ⟨hforest, hfree, hunknown, hborn, htype⟩ := hs.bears hbears
    exact ⟨hforest, hfree, hunknown, hborn, htype⟩
  · obtain ⟨f, rfl⟩ := ht
    have hsame : SameTablesOf s { s with forest := f } := .of_objects rfl rfl
    exact hs.thins hsame.moves

lemma modShare_empty (sh : Kobj) {x : Share} (hx : ∀ e, e ∉ x.shKobjectMap.table.toList) :
    Steps Thins (modShare sh fun _ => x) := .change fun s => by
  refine ⟨fun q => (kin_modObj sh q (kin_refl _)).remains, rfl, fun p k hk => ?_,
    fun _ _ => knows_modShare (f := fun _ => x)⟩
  rcases contains_modShare (f := fun _ => x) hk with hk | ⟨-, e, he, -⟩
  · exact .inl hk
  · exact absurd he (hx e)

lemma shareAlloc_gives (mask pid : ℕ) :
    Gives (.both Forested) Forested (Newborn .share) (shareAlloc mask pid) :=
  Newborn.after (kobjectAlloc_gives _ _) fun _ =>
    .seq (Newborn.of_steps (.loop (fun _ => of_same_thins (onForest_same _)) _ _)) <|
      .seq (Newborn.of_steps (modShare_empty _ fun e => toList_hashInit 0 e)) (.pure fun _ _ => rfl)

lemma freeProcessor_same (pid : ℕ) : Steps SameTablesOf (freeProcessor pid) :=
  .bind .state fun _ => .seq (.require _) (.change fun _ => .of_objects rfl rfl)

lemma allocProcessor_same (pid : ℕ) : Steps SameTablesOf (allocProcessor pid) :=
  .bind .state fun _ => .ite (.raise _) <| .ite (.raise _) <| .change fun _ => .of_objects rfl rfl

lemma processorAlloc_gives (pid : ℕ) :
    Gives (.both Forested) Forested (Newborn .processor) (processorAlloc pid) :=
  have hobj := Gives.onErr (kobjectAlloc_gives .processor pid)
    (Forested.of_same (freeProcessor_same pid))
  .seq (Forested.of_same (allocProcessor_same pid)) <| Newborn.after hobj fun _ =>
    .seq (Newborn.of_steps (.change fun _ => modProcessor_thins
        (f := fun p => { p with psPid := pid, psSharemap := sharemapInit pid }) fun x hx =>
          absurd hx (toList_hashInit 0 x)))
      (.pure fun _ _ => rfl)

lemma newPagemap_same (a : Kobj) (interior pid : ℕ) :
    Steps SameTablesOf (newPagemap a interior pid) :=
  .bind (.bind (onForest_same _) fun _ => .bind (.of_quiet fun _ => rfl) fun _ => .pure _) fun _ =>
    modTree_same _ _

lemma atAlloc_gives (interior pid : ℕ) :
    Gives (.both Forested) Forested (Newborn .addressTree) (atAlloc interior pid) :=
  Newborn.after (kobjectAlloc_gives _ _) fun _ =>
    .seq (Newborn.of_steps (of_same_thins (newPagemap_same _ _ _))) <|
      .seq (Newborn.of_steps (of_same_thins (onArrays_same _))) <|
        .seq (Newborn.of_steps (of_same_thins (onArrays_same _))) (.pure fun _ _ => rfl)

/-! ### Actions and collections -/

lemma shareActionCi_thins (sh : Kobj) (b : Blob) : Steps Thins (shareActionCi sh b) :=
  .of_wp fun s => by
    simp only [shareActionCi, getInfo, wp_rules, wp_derefAs_any]
    refine fun _ _ => ⟨fun _ => ?_, fun _ => trivial⟩
    exact wp_post ((Moves.refl s).setInfo (.inl rfl)) fun _ _ h => h.1

lemma shareActionScan_thins : Steps Thins shareActionScan := by
  have hfree : ∀ sh b, Steps Thins (shareBlobFree sh b) := fun sh b =>
    of_same_thins (shareBlobFree_same sh b)
  refine .bind (.of_quiet fun _ => rfl) fun cpu => .bind .state fun s => ?_
  cases s.nextAction cpu with
  | none => exact .pure _
  | some a =>
    simp only [takeAction, doAction]
    cases a.saAction with
    | ci =>
      exact .seq (shareActionCi_thins _ _) <| .bind (.of_quiet fun _ => rfl) fun _ =>
        .seq (of_same_thins (.change fun _ => .of_objects rfl rfl)) (hfree _ _)
    | dec =>
      exact .seq (.bind (getInfo_quiet _ _) fun _ => .ite (.halt _) <|
          .seq (of_spares_thins (kobjectDecref_spares _)) (hfree _ _)) <|
        .bind (.of_quiet fun _ => rfl) fun _ =>
          .seq (of_same_thins (.change fun _ => .of_objects rfl rfl)) (hfree _ _)

lemma atClearMappings_same (a : Kobj) : Steps SameTablesOf (atClearMappings a) :=
  atClearMappings_steps (fun _ => .derefAs fun _ => .bind .state fun _ =>
      .join (onArrays_same _) fun _ => .derefAs fun _ => .pure _)
    (fun ko r => of_spares_same ((amlRemove_flushes ko r).mono fun _ _ => Flushes.toSpares))
    fun _ => modTree_same _ _

lemma shareRemoveKobj_thins (sh : ℕ) (ko : Kobj) : Steps Thins (shareRemoveKobj sh ko) :=
  .deref fun o => by
    cases o.koType with
    | segment => exact .derefAs fun _ => of_flushes_thins (amlLoop_flushes _ _)
    | addressTree =>
      exact .seq (of_flushes_thins (kobjCacheFlush_flushes _)) <| .derefAs fun _ =>
        .ite (of_flushes_thins (amlLoop_flushes _ _)) <| .forEach (fun _ => .derefAs fun _ =>
          .seq (.require _) <| .ite (.bind (processorHalt_thins _) fun _ => .pure _) (.pure _)) _
    | _ => exact .pure _

lemma shareMapFree_thins (sh : Kobj) : Steps Thins (onShareMap sh (mapFree (mapBack sh))) := by
  refine .of_wp fun s => ?_
  rw [onShareMap, wp_zoom]
  refine wp_mono (mapFree_quiet sh _) (fun _ y hy => onShareMap_moves y fun e he => .inl ?_)
    fun _ y hy => onShareMap_moves y fun e he => .inl ?_
  · rwa [show y.1 = _ from hy] at he
  · rwa [show y.1 = _ from hy] at he

lemma gcCb_thins (ko : Kobj) : Steps Thins (gcCb ko) :=
  .deref fun o => by
    cases o.koType with
    | segment => exact .derefAs fun _ => of_same_thins (onArrays_same _)
    | addressTree =>
      exact .seq (of_flushes_thins (kobjCacheFlush_flushes _)) <|
        of_same_thins <| .seq (atClearMappings_same _) <| .seq (onArrays_same _) <|
          .seq (onArrays_same _) <| .derefAs fun _ => .bind (.need _ _) fun _ =>
            .bind .state fun _ => onForest_same _
    | processor =>
      have hrest : ∀ pid, Steps Thins (do
          sharemapFree ko
          freeProcessor pid) := fun pid =>
        .seq (sharemapFree_thins _) (of_same_thins (freeProcessor_same pid))
      exact .derefAs fun _ => .ite
        (.bind (processorHalt_thins _) fun _ => .join (.halt _) fun _ => hrest _) (hrest _)
    | share =>
      exact .derefAs fun _ => .bind (.derefAs fun _ => .pure _) fun _ =>
        .seq (.forEach (fun _ => .seq (.require _) <| .seq (shareRemoveKobj_thins _ _)
          (of_spares_thins (kobjectDecref_spares _))) _) <|
        .seq (shareMapFree_thins _) (.loop (fun _ => of_same_thins (onForest_same _)) _ _)
    | device => exact .pure _

/-- What is left of an object holds what it held. -/
lemma thins_bury (ko : Kobj) (f : Forest TreeId) :
    Thins s (Machine.bury ko { s with forest := f }) := by
  have hsame : ∀ {β : Type} {g : Kobject → β}, (∀ o : Kobject, g { o with live := false } = g o) →
      ∀ p, g ((Machine.bury ko { s with forest := f }).obj p) = g (s.obj p) := fun h =>
    modObj_eq (s := { s with forest := f }) (f := fun o => { o with live := false }) (h _)
  refine ⟨fun p => ⟨?_, hsame (g := Kobject.koType) (fun _ => rfl) p⟩, rfl, fun p k hk => .inl ?_,
    fun p k hk => ?_⟩
  · exact forall_modObj (s := { s with forest := f }) (f := fun o => { o with live := false })
      (P := fun p o => o.live = true → (s.obj p).live = true) (by simp) (fun _ => id) p
  · rwa [Machine.Contains, hsame (g := Kobject.sh) fun _ => rfl] at hk
  · rwa [Machine.Knows, hsame (g := Kobject.ps) fun _ => rfl] at hk

lemma Forested.gc (h : Forested s) (hr : GcRound s s') : Forested s' := by
  have hpop : SameTablesOf s (s.popGc s.mem.cpu) := .of_objects rfl rfl
  have hcb : ∀ {ko : Kobj} {u : Machine}, (gcCb ko).next (s.popGc s.mem.cpu) = some u →
      Forested u := fun hu =>
    Steps.keeps (fun _ _ ht hs => hs.thins ht) ((gcCb_thins _).of_next hu) (h.thins hpop.moves)
  cases hr with
  | idle => exact h
  | kept => exact h.thins hpop.moves
  | failed _ _ _ hu => exact hcb hu
  | freed _ _ _ hu => exact (hcb hu).thins (thins_bury _ _)

/-! ### The calls -/

lemma sharemapAdd_kin (ps sh : Kobj) (hs : Forested s) :
    wp (sharemapAdd ps sh) (fun _ t => Forested t ∧ ∀ p, Kin (s.obj p) (t.obj p))
      (.both Forested) s := by
  simp only [sharemapAdd, wp_bind, wp_derefAs]
  refine ⟨fun hlive _ => ⟨fun _ _ => ?_, fun _ _ => trivial, fun _ => trivial⟩, fun _ _ => trivial,
    fun _ => trivial⟩
  rw [wp_ite]
  refine ⟨fun _ => hs, fun _ => ?_⟩
  -- the processor gets to know the share, and that is all
  have hset : ∀ r : Map Kobj × Forest TreeId, (∀ x ∈ r.1.table.toList,
      x = ((s.obj sh).koId, sh) ∨ x ∈ (s.obj ps).ps.psSharemap.map.table.toList) →
      Forested (s.setSharemap ps r) := by
    intro r hr
    have hkin : ∀ p, Kin (s.obj p) ((s.setSharemap ps r).obj p) := setSharemap_kin
    have hheld : ∀ p k, (s.setSharemap ps r).Contains p k → s.Contains p k := fun p k =>
      contains_modProcessor (s := { s with forest := r.2 })
        (f := fun x => { x with psSharemap := { x.psSharemap with map := r.1 } })
    refine ⟨fun p hp => hs.live p ((hkin p).1 ▸ hp), fun p k hk => hs.held p k (hheld p k hk),
      fun p k hk => ?_, fun p c hc hshare => hs.older p c (hheld p c hc) ((hkin c).2.2 ▸ hshare),
      fun p q c hp hq hshare => hs.one p q c (hheld p c hp) (hheld q c hq) ((hkin c).2.2 ▸ hshare)⟩
    rcases knows_modProcessor (s := { s with forest := r.2 })
      (f := fun x => { x with psSharemap := { x.psSharemap with map := r.1 } }) hk with
      hk | ⟨rfl, e, he, rfl⟩
    · exact hs.known p k hk
    · rcases hr e he with rfl | hold
      · exact hs.live sh hlive
      · exact hs.known p e.2 ⟨e, hold, rfl⟩
  rw [wp_bind, wp_onSharemap]
  refine wp_mono (mapPut_lists (mapBack ps) _ sh _) (fun _ r hr => ?_)
    fun _ r hr => hset r fun x hx => .inr ((hr x).mp hx)
  have hforest := hset r fun x hx => (hr x).mp hx
  refine wp_mono (SameTablesOf.after (.refl _) (kobjectIncref_same sh)) (fun _ t ht => ?_)
    fun _ t ht => hforest.thins ht.moves
  exact ⟨hforest.thins ht.moves, fun p => (setSharemap_kin p).trans (ht.kin p)⟩

lemma sharemapAdd_keeps (ps sh : Kobj) : Keeps Forested (sharemapAdd ps sh) := fun _ hs =>
  wp_post (sharemapAdd_kin ps sh hs) fun _ _ ht => ⟨ht.1, trivial⟩

lemma shareImportObj_other (sh : Kobj) (hs : Forested s) (hko : (s.obj ko).koType ≠ .share) :
    wp (shareImportObj sh ko) (fun _ t => Forested t ∧ True) (.both Forested) s := by
  by_cases hlive : (s.obj ko).live = true
  · exact wp_mono (shareImportObj_imports sh ko s)
      (fun _ _ ht => ⟨hs.imports ht (hs.live ko hlive) (.inl hko), trivial⟩)
      fun _ _ ht => hs.imports ht (hs.live ko hlive) (.inl hko)
  · simp only [shareImportObj, wp_bind, wp_deref]
    exact ⟨fun h => absurd h hlive, fun _ => trivial⟩

lemma processorImportObj_new (ps : Kobj) (id : ℕ) (hs : Forested s) (hnew : Newborn type ko s) :
    wp (processorImportObj ps id ko) (fun _ t => Forested t ∧ True) (.both Forested) s := by
  simp only [processorImportObj, processorGetShare, wp_bind]
  refine wp_mono (sharemapGet_knows ps id s) (fun sh t ht => ?_) fun _ _ ht => ht ▸ hs
  obtain ⟨rfl, hknows⟩ := ht
  have hlt : sh < ko := by
    have hborn := hs.known ps sh hknows
    have hne : sh ≠ ko := fun h => hnew.unknown ps (h ▸ hknows)
    rw [hnew.newest] at hborn
    exact lt_of_le_of_ne (Nat.lt_succ_iff.mp hborn) hne
  have hko : ko < t.born := hnew.newest ▸ Nat.lt_succ_self ko
  exact wp_mono (shareImportObj_imports sh ko t)
    (fun _ _ hu => ⟨hs.imports hu hko (.inr ⟨hlt, hnew.free⟩), trivial⟩)
    fun _ _ hu => hs.imports hu hko (.inr ⟨hlt, hnew.free⟩)

lemma vectorShare_keeps (ps : Kobj) (r : SobjRef) : Keeps Forested (vectorShare ps r) :=
  .bind (Forested.of_same theProcessor_quiet) fun _ =>
    .bind (Forested.of_thins (processorCoObj_thins _ _ _)) fun _ => sharemapAdd_keeps _ _

lemma processorVector_keeps (ps : Kobj) (uc : UContext) : Keeps Forested (processorVector ps uc) :=
  .bind (Forested.of_same (derefAs_quiet _ _)) fun _ => .ite (.raise _) <|
    .seq (.forEach (vectorShare_keeps ps) _) <|
      .bind (Forested.of_thins (processorCoObj_thins _ _ _)) fun _ => .seq (.keeps (.require _))
        (Forested.of_same (processorStart_same _ _ _))

lemma sysShareAlloc_keeps (src : Kobj) (sh mask pid : ℕ) :
    Keeps Forested (sysShareAlloc src sh mask pid) :=
  .bind_of (shareAlloc_gives _ _) fun ko _ ht hnew => wp_bind.mpr <|
    wp_mono (processorImportObj_new src sh ht hnew)
      (fun _ u hu => Gives.seq (sharemapAdd_keeps _ _) (Forested.of_same (idOf_quiet ko)) u hu.1)
      fun _ _ h => h

lemma sharemapGet_keeps (ps : Kobj) (id : ℕ) : Keeps Forested (sharemapGet ps id) := fun s hs =>
  wp_mono (sharemapGet_knows ps id s) (fun _ _ ht => ⟨ht.1 ▸ hs, trivial⟩) fun _ _ ht => ht ▸ hs

lemma sysShareAddref_keeps (src : Kobj) (dstSh srcSh obj : ℕ) :
    Keeps Forested (sysShareAddref src dstSh srcSh obj) :=
  .bind (sharemapGet_keeps _ _) fun dst => .bind (sharemapGet_keeps _ _) fun _ =>
    .bind (Forested.of_thins (shareCoObj_thins _ _ _)) fun ko s hs => by
      simp only [wp_rules, wp_deref]
      refine ⟨fun _ => ⟨fun _ => hs, fun htype => ?_⟩, fun _ => trivial⟩
      exact shareImportObj_other dst hs htype

/-- The calls that make, fill and empty shares, hand them on and drop them. -/
def Syscall.onShares : Syscall → Bool
  | .shareAlloc _ _ _ | .shareAddref _ _ _ | .shareUnref _ _ | .selfDropShare _
  | .processorVector _ _ => true
  | _ => false

/-- What the calls leave for later is done in between. -/
def Act.onShares : Act → Bool
  | .syscall c => c.onShares
  | .scan | .gc => true
  | _ => false

lemma kernSyscall_keeps (src : Kobj) (c : Syscall) (hc : c.onShares = true) :
    Keeps Forested (kernSyscall src c) := by
  cases c with
  | shareAlloc sh mask pid => exact sysShareAlloc_keeps src sh mask pid
  | shareAddref dstSh srcSh obj => exact sysShareAddref_keeps src dstSh srcSh obj
  | shareUnref sh obj =>
    exact .seq (.bind (sharemapGet_keeps _ _) fun _ =>
      Forested.of_thins (shareRemoveObj_thins _ _)) (.pure fun _ _ => trivial)
  | selfDropShare sh =>
    exact .seq (Forested.of_steps (sharemapRemove_thins _ _)) (.pure fun _ _ => trivial)
  | processorVector obj uc =>
    exact .bind (Forested.of_thins (processorCoObj_thins _ _ _)) fun _ =>
      .seq (processorVector_keeps _ _) (.pure fun _ _ => trivial)
  | _ => cases hc

lemma userBootstrap_keeps : Keeps Forested userBootstrap :=
  .bind (shareAlloc_gives _ _) fun sh => .bind_of (processorAlloc_gives _) fun ps t ht hnew => by
    rw [processorAddShare, wp_bind]
    refine wp_post (sharemapAdd_kin ps sh ht) fun _ u ⟨hu, hkin⟩ => ?_
    rw [wp_bind]
    have hps : (u.obj ps).koType ≠ .share := by
      rw [(hkin ps).2.2, hnew.koType]
      decide
    refine wp_post (shareImportObj_other sh hu hps) fun _ v hv => ?_
    refine Gives.bind_of (P := Newborn .addressTree) (atAlloc_gives 0 0)
      (fun a w hw hnew => ?_) v hv.1
    rw [wp_bind]
    have ha : (w.obj a).koType ≠ .share := by
      rw [hnew.koType]
      decide
    refine wp_post (shareImportObj_other sh hw ha) fun _ x hx => ?_
    exact Gives.bind (Forested.of_same (idOf_quiet _)) (fun _ =>
      .bind (Forested.of_same (idOf_quiet _)) fun _ => processorVector_keeps _ _) x hx.1

lemma Forested.bare (k ncpu ndev : ℕ) : Forested (bareMachine k ncpu ndev) := by
  have hheld : ∀ p c, ¬ (bareMachine k ncpu ndev).Contains p c := fun p c ⟨e, he, _⟩ =>
    toList_hashInit 0 e he
  have hknown : ∀ p c, ¬ (bareMachine k ncpu ndev).Knows p c := fun p c ⟨e, he, _⟩ =>
    toList_hashInit 0 e he
  exact ⟨nofun, fun p c h => absurd h (hheld p c), fun p c h => absurd h (hknown p c),
    fun p c h => absurd h (hheld p c), fun p _ c h => absurd h (hheld p c)⟩

lemma Forested.of_boot (h : kernel.init s) : Forested s := by
  obtain ⟨k, d, ncpu, ndev, -, hb⟩ := h
  obtain ⟨t, hbt, rfl⟩ := Option.map_eq_some_iff.mp hb
  obtain ⟨⟨u, t'⟩, hr, rfl⟩ := Option.map_eq_some_iff.mp hbt
  have hboot := wp_ok (userBootstrap_keeps _ (Forested.bare k ncpu ndev)) (result_eq_some.mp hr)
  have hsame : SameTablesOf t' (t'.denying d) := .of_objects rfl rfl
  exact hboot.1.thins hsame.moves

lemma Forested.step {e : Event} (h : Forested s) (he : e.act.onShares = true)
    (hs : e.step s = some s') : Forested s' := by
  simp only [Event.step] at hs
  split_ifs at hs
  have hsame : SameTablesOf s (s.at e.cpu) := .of_objects rfl rfl
  by_cases hgc : e.act = .gc
  · rw [hgc] at hs
    exact (h.thins hsame.moves).gc (kobjectGcScan_round hs)
  refine Gives.next (P := fun _ _ => True) ?_ (h.thins hsame.moves) hs
  cases hact : e.act with
  | syscall c =>
    exact .bind (Forested.of_same theProcessor_quiet) fun _ =>
      .bind (kernSyscall_keeps _ c (by rw [hact] at he; exact he)) fun _ => .pure fun _ _ => trivial
  | scan => exact Forested.of_steps shareActionScan_thins
  | gc => exact absurd hact hgc
  | _ =>
    rw [hact] at he
    cases he

/-- The share `p` holds the share `c`. -/
def Machine.ShareIn (s : Machine) (c p : Kobj) : Prop :=
  s.Contains p c ∧ s.live c = true ∧ (s.obj c).koType = .share ∧
    s.live p = true ∧ (s.obj p).koType = .share
  deriving Decidable

/-- **Shares form a forest.** In every state that calls on shares lead to from boot, with actions
and collections in between, a share is in one other share at most, and no share is in itself,
directly or through others. -/
theorem share_containment_is_forest
    (h : kernel.Reach (fun _ e => e.act.onShares = true) s) :
    (∀ c p q, s.ShareIn c p → s.ShareIn c q → p = q) ∧ ∀ c, ¬ Relation.TransGen s.ShareIn c c := by
  have hinv : Forested s := h.invariant (fun _ => Forested.of_boot) fun _ _ _ hI hok hs =>
    hI.step hok hs
  refine ⟨fun c p q hp hq => hinv.one p q c hp.1 hq.1 hp.2.2.1, fun c hc => ?_⟩
  -- going up from a share leads to older ones
  have hup : ∀ a b, Relation.TransGen s.ShareIn a b → b < a := by
    intro a b hab
    induction hab with
    | single h => exact hinv.older _ _ h.1 h.2.2.1
    | tail _ h ih => exact (hinv.older _ _ h.1 h.2.2.1).trans ih
  exact absurd (hup c c hc) (Nat.lt_irrefl c)

/-- Two shares are made, the second one in the first, which is in the boot share. -/
theorem share_containment_is_forest_nested :
    ∃ s, kernel.Reach (fun _ e => e.act.onShares = true) s ∧ s.ShareIn 3 0 ∧ s.ShareIn 4 3 ∧
      (∀ p q, s.ShareIn 4 p → s.ShareIn 4 q → p = q) := by
  obtain ⟨s, hs, h3, h4⟩ := reach_of_bootRun 60 1
    [⟨0, .syscall (.shareAlloc 1 0xFFFFFFFF 0)⟩, ⟨0, .gc⟩,
      ⟨0, .syscall (.shareAlloc 4 0xFFFFFFFF 0)⟩, ⟨0, .scan⟩]
    (P := fun s => s.ShareIn 3 0 ∧ s.ShareIn 4 3) (fun _ e => e.act.onShares) _ (fun _ _ h => h)
    (by decide +kernel)
  exact ⟨s, hs, h3, h4, (share_containment_is_forest hs).1 4⟩

end Corey.Kern
