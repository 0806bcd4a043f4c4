import Corey.Kern.Effect

/-!
What the functions of the kernel do, in terms of the changes listed before.

Halting a processor is done in two parts, between which the processor has no address tree. What
calls it is therefore shown to take steps of `Move K`, one of which is to halt a processor.
-/

namespace Corey.Kern

open Corey.Comp Corey.Mem Forest
open Corey.Mem.Forest (ForestM)
open Relation (ReflTransGen)

variable {K : Set Kind} {b : Watch} {pid : ℕ} {α : Type} {c : Syscall} {s s' : Machine}

/-! ### Segments -/

lemma segmentAlloc_acts (hk : .birth .segment ∈ K) (h : b.ok pid) : Acts K b (segmentAlloc pid) :=
  .bind (kobjectAlloc_acts hk h) fun _ => .seq (modSegment_acts _ _) <|
    .seq (onArrays_acts (darrayInit_asks h _ _ _)) (.done _)

lemma segmentRemoveCb_acts (sg : Kobj) (sh : ℕ) : Acts K b (segmentRemoveCb sg sh) :=
  .derefAs fun _ => amlLoop_acts _ _

lemma segmentScopeCb_acts (sg : Kobj) (sh : ℕ) (ps : Kobj) : Acts K b (segmentScopeCb sg sh ps) :=
  .derefAs fun _ => amlLoop_acts _ _

lemma segmentGcCb_acts (sg : Kobj) : Acts K b (segmentGcCb sg) :=
  .derefAs fun _ => onArrays_acts (darrayFree_asks _)

lemma segmentCopy_acts (hk : .birth .segment ∈ K) (h : b.ok pid) (src : Kobj)
    (mode : PageSharingMode) : Acts K b (segmentCopy src mode pid) :=
  .derefAs fun _ => .ite (.raise _) <| .bind (segmentAlloc_acts hk h) fun _ =>
      .seq (.ite (segmentRemoveCb_acts _ _) (.done _)) <|
        .seq (onArrays_acts (darrayCopy_asks _ _ _)) (.done _)

lemma segmentSetNbytes_acts (sg : Kobj) (n : ℕ) : Acts K b (segmentSetNbytes sg n) :=
  .bind (segmentGetNpage_acts _) fun _ =>
    .seq (.ite (segmentRemoveCb_acts _ _) (.done _)) <|
      .ite (onArrays_acts (darraySetNent_asks _ _ _)) (.done _)

lemma segmentGetPage_acts (sg : Kobj) (k : ℕ) (mode : PageSharingMode) :
    Acts K b (segmentGetPage sg k mode) :=
  .derefAs fun _ => .bind (onArrays_acts (darrayGet_asks _ _ _)) fun _ => .done _

lemma segmentFaultPage_acts (sg : Kobj) (k : ℕ) (mode : PageSharingMode) :
    Acts K b (segmentFaultPage sg k mode) :=
  .bind (segmentGetPage_acts _ _ _) fun _ => .bind (.need _ _) fun _ =>
    .seq (onForest_acts (onMem_asks (.bind .state fun _ =>
      .ite (.seq (.change fun _ h => h) (.change fun _ h => h)) (.done _)))) (.done _)

/-! ### Address trees -/

lemma newPagemap_acts (h : b.ok pid) (a : Kobj) (interior : ℕ) :
    Acts K b (newPagemap a interior pid) :=
  .bind (.bind (onForest_acts (takePage_asks h)) fun _ => .bind archCpu_acts fun _ => .done _)
    fun _ => modTree_acts fun _ => rfl

lemma setRange_acts (a : Kobj) (r : RangeCache) : Acts K b (setRange a r) :=
  globals_acts fun _ => rfl

lemma setUpTree_acts (h : b.ok pid) (a : Kobj) (interior : ℕ) : Acts K b (do
    newPagemap a interior pid
    onArrays (darrayInit (atUaddrmap a) uamSize false pid)
    onArrays (darrayInit (atAddrmap a) amSize false pid)
    pure a) :=
  .seq (newPagemap_acts h _ _) <| .seq (onArrays_acts (darrayInit_asks h _ _ _)) <|
    .seq (onArrays_acts (darrayInit_asks h _ _ _)) (.done _)

lemma atAlloc_acts (hk : .birth .addressTree ∈ K) (h : b.ok pid) (interior : ℕ) :
    Acts K b (atAlloc interior pid) :=
  .bind (kobjectAlloc_acts hk h) fun a => setUpTree_acts h a interior

lemma atResize_acts (a : Kobj) (n : ℕ) : Acts K b (atResize a n) :=
  .bind (atNents_acts _) fun _ => .bind .state fun _ => .join (setRange_acts _ _) fun _ =>
    .seq (onArrays_acts (darraySetNent_asks _ _ _)) (modTree_acts fun _ => rfl)

lemma atGetUaddrmap_acts (a : Kobj) (i : ℕ) : Acts K b (atGetUaddrmap a i) :=
  .bind (atNents_acts _) fun _ => .bind (getObj_acts _) fun _ => .ite (.raise _) (.done _)

lemma atGetAddrmap_acts (a : Kobj) (i : ℕ) : Acts K b (atGetAddrmap a i) :=
  .derefAs fun _ => .bind .state fun _ =>
    .join (onArrays_acts (darrayGrowNent_asks _ _)) fun _ => getAm_acts _

lemma clearMapping_acts (a : Kobj) (i : ℕ) : Acts K b (clearMapping a i) :=
  .bind (.attempt (atGetUaddrmap_acts _ _)) fun
    | .error _ => .halt _
    | .ok _ => .ite (.done _) <| .bind (.attempt (atGetAddrmap_acts _ _)) fun
      | .error _ => .done _
      | .ok am => by
        dsimp only
        cases am.amKobj with
        | none => exact .done _
        | some ko => exact .seq (amlRemove_acts _ _) (clearKobj_acts _)

lemma atClearMappings_acts (a : Kobj) : Acts K b (atClearMappings a) :=
  .bind (atNents_acts _) fun _ => .loop (clearMapping_acts _) _ _

lemma atInvalidate_acts (a ps : Kobj) : Acts K b (atInvalidate a ps) :=
  .derefAs fun _ => .derefAs fun _ => .seq (.check _) <| .ite
    (.bind processorSched_acts fun _ => .seq (.check _) (atInvalidateRange_acts _ _ _)) (.done _)

lemma atFromUser_acts (a : Kobj) (ents : List UAddressMapping) : Acts K b (atFromUser a ents) :=
  .bind (atNents_acts _) fun _ => .join (atResize_acts _ _) fun _ =>
    .seq (atClearMappings_acts _) <| .bind (atNents_acts _) fun _ =>
      .seq (modTree_acts fun _ => rfl) <|
        .derefAs fun _ => .forEach (atInvalidate_acts _) _

lemma atInvalidateUaddrmap_acts (a : Kobj) (u : UAddressMapping) :
    Acts K b (atInvalidateUaddrmap a u) :=
  .bind (.attempt (atGetAddrmap_acts _ _)) fun
    | .error _ => .halt _
    | .ok am => by
      dsimp only
      cases am.amKobj with
      | none => exact .done _
      | some ko => exact .seq (amlRemove_acts _ _) (atInvalidateAddrmap_acts _ _)

lemma atSetUslot_acts (a : Kobj) (u : UAddressMapping) : Acts K b (atSetUslot a u) :=
  .bind (atNents_acts _) fun _ => .join (atResize_acts _ _) fun _ =>
    .bind (atGetUaddrmap_acts _ _) fun _ => .join (atInvalidateUaddrmap_acts _ _) fun _ =>
      modTree_acts fun _ => rfl

lemma atDetach_acts (a ps : Kobj) : Acts K b (atDetach a ps) :=
  .derefAs fun _ => .derefAs fun _ => .seq (.check _) <|
    modTree_acts fun _ => rfl

lemma atGcCb_acts (a : Kobj) : Acts K b (atGcCb a) :=
  .seq (kobjCacheFlush_acts _) <| .seq (atClearMappings_acts _) <|
    .seq (onForest_acts (free_asks _)) <| .seq (onForest_acts (free_asks _)) <|
      .derefAs fun _ => .bind (.need _ _) fun _ => .bind .state fun _ =>
        onForest_acts (pageMapFree_asks _ _ _)

/-! ### Page faults -/

/-- What a fault does to the objects is not looked at. -/
abbrev Serves (b : Watch) {α : Type} (m : KM α) : Prop := Acts Set.univ b m

lemma kobjGet_acts (a : Kobj) (ref : SobjRef) (type : KobjType) : Serves b (kobjGet a ref type) :=
  .bind theProcessor_acts fun _ => .derefAs fun _ =>
    .derefAs fun _ => .ite (.done _) <|
      .bind (processorCoObj_acts (Set.mem_univ _) _ _ _) fun _ =>
        .join (kobjectDecref_acts (Set.mem_univ _)) fun _ =>
          .seq (Tracks.of (.change fun _ => .fault (Set.mem_univ _) _) (modTree_asks _ _)) <|
            .seq (kobjectIncref_acts (Set.mem_univ _) _) (.done _)

lemma linkMapping_acts (a : Kobj) (u : UAddressMapping) (ko : Kobj) :
    Serves b (linkMapping a u ko) :=
  .bind (atGetAddrmap_acts _ _) fun _ => .seq (.check _) <| .ite
    (.bind theProcessor_acts fun _ => .seq (amlInsert_acts _ _ _) (.done _)) (.done _)

lemma fillSegment_acts (a : Kobj) (u : UAddressMapping) (va : ℕ) : Serves b (fillSegment a u va) :=
  .bind (kobjGet_acts _ _ _) fun _ => .derefAs fun _ =>
    .bind (linkMapping_acts _ _ _) fun _ => .bind (.seq (.check _) (.done _)) fun _ => .done _

lemma fillInterior_acts (a : Kobj) (u : UAddressMapping) (va : ℕ) :
    Serves b (fillInterior a u va) :=
  .ite (.raise _) <| .bind (kobjGet_acts _ _ _) fun _ => .derefAs fun _ =>
    .ite (.raise _) <| .bind (linkMapping_acts _ _ _) fun _ =>
      .join (putInterior_acts _ _ _) fun _ => .done _

lemma chooseSlot_acts (a : Kobj) (va req : ℕ) : Serves b (chooseSlot a va req) :=
  .bind (derefAs_acts _ _) fun o => .bind .state fun s => by
    cases (s.atRange a).hit o.tree.uaddrmap va req with
    | some i => exact .done _
    | none =>
      refine .bind (atNents_acts _) fun n => .bind (getObj_acts _) fun o => ?_
      cases scanSlots o.tree.uaddrmap va req n 0 with
      | none => exact .raise _
      | some i => exact .seq (setRange_acts _ _) (.done _)

lemma findTarget_acts : ∀ (fuel : ℕ) (a : Kobj) (va req : ℕ), Serves b (findTarget fuel a va req)
  | 0, _, _, _ => .halt _
  | fuel + 1, _, _, _ => .bind (chooseSlot_acts _ _ _) fun _ => .bind (getObj_acts _) fun _ =>
      .ite (.bind (fillInterior_acts _ _ _) fun _ => findTarget_acts fuel _ _ _)
        (fillSegment_acts _ _ _)

lemma fillPage_acts (t : Target) : Serves b (fillPage t) :=
  .bind (segmentFaultPage_acts _ _ _) fun _ => .bind_val (derefAs_acts _ _) fun _ ho =>
    asArchPutpage_acts ho.koPid _ _ _

lemma atPagefault_acts (fuel : ℕ) (a : Kobj) (va req : ℕ) : Serves b (atPagefault fuel a va req) :=
  .onErr (.bind (findTarget_acts _ _ _ _) fillPage_acts) (kobjCacheFlush_acts _)

/-! ### Losing a share -/

lemma sharemapFree_acts (ps : Kobj) : Acts K b (sharemapFree ps) :=
  onSharemap_acts _ (mapFree_asks _)

section

variable {R : Machine → Machine → Prop} (hR : ∀ s s', Effect {.dropShare} s s' → R s s')
  (hT : ∀ s s' p, R s s' → (s.obj p).koType = .share → (s'.obj p).koType = .share)
  {haltPs : Kobj → KM Bool} (hh : ∀ b p, Tracks R b (haltPs p))

include hR hh in
lemma scopeCb_acts (ko : Kobj) (sh : ℕ) (ps : Kobj) : Tracks R b (scopeCb haltPs ko sh ps) :=
  .bind (deref_acts _) fun o => by
    cases o.koType with
    | segment => exact Tracks.mono hR fun _ => segmentScopeCb_acts _ _ _
    | addressTree =>
      exact .seq (Tracks.mono hR fun _ => kobjCacheFlush_acts _) <|
        .derefAs fun _ =>
        .ite (Tracks.mono hR fun _ => amlLoop_acts _ _) <| .derefAs fun _ =>
          .ite (.bind (hh _ _) fun _ => .done _) (.done _)
    | processor => exact .done _
    | share => exact .done _
    | device => exact .done _

include hR hh in
lemma shareScopeChange_acts (sh ps : Kobj) : Tracks R b (shareScopeChange haltPs sh ps) :=
  .derefAs fun _ => .bind (shareInfos_acts _) fun _ =>
    .forEach (fun _ => scopeCb_acts hR hh _ _ _) _

include hR hT hh in
/-- The object has been found to be a share when its reference is given up. -/
lemma scoped_acts (sh ps : Kobj) : Tracks R b (do
    shareScopeChange haltPs sh ps
    kobjectDecref sh) := by
  have hscope : Steps R (shareScopeChange haltPs sh ps) :=
    Tracks.steps fun _ _ _ => shareScopeChange_acts hR hh sh ps
  refine .of (.bind_of hscope fun s _ t hst _ => ?_) (.seq (Tracks.asking fun _ =>
    shareScopeChange_acts hR hh sh ps) (kobjectDecref_asks sh))
  have hs : (s.obj sh).koType = .share := by
    refine wp_ok (X := .any) (Q := fun _ _ => (s.obj sh).koType = .share) ?_ hst
    rw [shareScopeChange, wp_bind, wp_derefAs_any]
    exact fun _ ht => wp_any_of fun _ _ => ht
  have ht : (t.obj sh).koType = .share := Steps.keeps (I := fun t => (t.obj sh).koType = .share)
    (fun _ _ h => hT _ _ sh h) (hscope.of_ok hst) hs
  exact .single
    (hR _ _ (.decref (.inr (.inl ⟨Set.mem_singleton _, ht⟩)) (kobjectDecref_decrefs sh t)))

include hR hT hh in
lemma sharemapRemove_acts (ps : Kobj) (id : ℕ) : Tracks R b (sharemapRemove haltPs ps id) :=
  .bind (Tracks.mono hR fun _ => sharemapGet_acts _ _) fun _ =>
    .bind (.attempt (Tracks.mono hR fun _ => onSharemap_acts _ (onTable_asks _))) fun
      | .error _ => .halt _
      | .ok _ => scoped_acts hR hT hh _ _

end

/-! ### Halting -/

lemma sharemapClear_acts (ps : Kobj) : Acts {.dropShare} b (sharemapClear noHalt ps) := by
  have htype : ∀ (s s' : Machine) (p : Kobj), Effect {.dropShare} s s' →
      (s.obj p).koType = .share → (s'.obj p).koType = .share := by
    intro s s' p h hp
    obtain hk | ⟨-, -, ht⟩ := h.kin (by simp) p
    · exact hk.2.2.trans hp
    · simp at ht
  exact .derefAs fun _ =>
    .seq (.forEach (fun _ => scoped_acts (fun _ _ => id) htype (fun _ _ => .halt _) _ _) _) <|
      .seq (sharemapFree_acts _) (modProcessor_acts (fun _ => rfl) (fun _ => rfl) fun _ h => h)

/-- The kinds of changes halting a processor consists of. -/
abbrev Halting : Set Kind := {.dropShare, .unset}

lemma processorHalt_acts (ps : Kobj) : Acts Halting b (processorHalt ps) :=
  .derefAs fun _ => .bind processorSched_acts fun _ => .ite
    (.seq (modProcessor_acts (fun _ => rfl) (fun _ => rfl) fun _ h => h) (.done _)) <|
    .bind (.need _ _) fun _ => .seq (atDetach_acts _ _) <|
      .seq (unset_acts (by simp) (fun _ => id) (fun _ _ h => by simp at h) fun _ => rfl) <|
      .seq (Tracks.mono (fun _ _ => Effect.mono (by simp)) fun _ => sharemapClear_acts _) <|
      .seq (globals_acts fun _ => rfl) <|
      .seq (unset_acts (by simp) (fun _ h => by simp at h) (fun _ _ => id) fun _ => rfl) (.done _)

lemma processorHalt_does (ps : Kobj) : Does Halting (processorHalt ps) :=
  Tracks.steps fun _ _ _ => processorHalt_acts ps

/-- A small change, or the halting of a processor as a whole. -/
inductive Move (K : Set Kind) (s : Machine) : Machine → Prop
  | effect {s' : Machine} (h : Effect K s s') : Move K s s'
  | halt (hk : .halt ∈ K) {ps : Kobj} (h : (processorHalt ps).Ends s) :
      Move K s (processorHalt ps s).2

abbrev Makes (K : Set Kind) (b : Watch) {α : Type} (m : KM α) : Prop := Tracks (Move K) b m

lemma Move.mono {K' : Set Kind} (h : K ⊆ K') (hm : Move K s s') : Move K' s s' := by
  cases hm with
  | effect he => exact .effect (he.mono h)
  | halt hk hends => exact .halt (h hk) hends

/-- What the small changes keep, those made in halting a processor included. -/
lemma Move.keeps {I : Machine → Prop} (h : ∀ s s', Effect (K ∪ Halting) s s' → I s → I s')
    (hm : Move K s s') (hs : I s) : I s' := by
  cases hm with
  | effect he => exact h _ _ (he.mono Set.subset_union_left) hs
  | halt _ hends =>
    exact Steps.keeps (R := Effect Halting) (fun _ _ he => h _ _ (he.mono Set.subset_union_right))
      (processorHalt_does _ s hends) hs

lemma Acts.moves {m : KM α} (h : ∀ s₀, Acts K { b with start := s₀ } m) : Makes K b m :=
  Tracks.mono (fun _ _ => .effect) h

lemma processorHalt_moves (hk : .halt ∈ K) (ps : Kobj) : Makes K b (processorHalt ps) :=
  .of (.of_rel fun _ hs => .halt hk hs) (Tracks.asking fun _ => processorHalt_acts ps)

/-! ### Collection -/

lemma freeProcessor_acts (pid : ℕ) : Acts K b (freeProcessor pid) :=
  .bind .state fun _ => .seq (.check _) <| globals_acts fun _ => rfl

section

variable (hk : .halt ∈ K)

include hk in
lemma shareRemoveKobj_moves (sh : ℕ) (ko : Kobj) : Makes K b (shareRemoveKobj sh ko) :=
  .bind (deref_acts _) fun o => by
    cases o.koType with
    | segment => exact Acts.moves fun _ => segmentRemoveCb_acts _ _
    | addressTree =>
      exact .seq (Acts.moves fun _ => kobjCacheFlush_acts _) <| .derefAs fun _ =>
        .ite (Acts.moves fun _ => amlLoop_acts _ _) <|
          .forEach (fun _ => .derefAs fun _ => .seq (.check _) <| .ite
            (.bind (processorHalt_moves hk _) fun _ => .done _) (.done _)) _
    | processor => exact .done _
    | share => exact .done _
    | device => exact .done _

include hk in
lemma dropMember_moves (sh : ℕ) {i : ShareInfo} (hd : .drop i.siKo ∈ K) : Makes K b (do
    require (i.siCo = 0)
    shareRemoveKobj sh i.siKo
    kobjectDecref i.siKo) :=
  .seq (.check _) <| .seq (shareRemoveKobj_moves hk _ _) <| Acts.moves fun _ =>
    kobjectDecref_acts hd

lemma freeShare_moves (sh : Kobj) : Makes K b (do
    onShareMap sh (mapFree (mapBack sh))
    loop (fun i => onForest (Forest.free (shBlob sh i))) 0 josNcpu) :=
  .seq (Acts.moves fun _ => onShareMap_acts _ (mapFree_asks _)) <|
    .loop (fun _ => Acts.moves fun _ => onForest_acts (Forest.free_asks _)) _ _

include hk in
lemma processorGcCb_moves (ps : Kobj) : Makes K b (processorGcCb ps) :=
  have hrest : ∀ pid, Makes K b (do
      sharemapFree ps
      freeProcessor pid) := fun _ =>
    .seq (Acts.moves fun _ => sharemapFree_acts _) (Acts.moves fun _ => freeProcessor_acts _)
  .derefAs fun _ => .ite
    (.bind (processorHalt_moves hk _) fun _ => .join (.halt _) fun _ => hrest _) (hrest _)

end

/-- The objects a share holds. -/
def Kobject.members (o : Kobject) : List Kobj :=
  o.sh.shKobjectMap.table.toList.map fun e => (o.sh.info e.2).siKo

/-- What the collector's callback does: the callback of a share gives up its members, and the
callbacks of a share and a processor may halt processors. -/
def Kobject.gcKinds (o : Kobject) : Set Kind :=
  {k | k = .halt ∧ (o.koType = .share ∨ o.koType = .processor) ∨
    ∃ ko ∈ o.members, k = .drop ko ∧ o.koType = .share}

lemma gcCb_moves {ko : Kobj} {u : Machine} (h : (gcCb ko).next s = some u) :
    ReflTransGen (Move (s.obj ko).gcKinds) s u := by
  refine next_of_wp (I := ReflTransGen (Move (s.obj ko).gcKinds) s) ?_ h
  have hrun : ∀ {m : KM Unit}, (∀ b, Makes (s.obj ko).gcKinds b m) →
      m.Leaves (ReflTransGen (Move (s.obj ko).gcKinds) s) s := fun hm =>
    Steps.wp_keeps (Tracks.steps fun _ _ _ => hm _) (fun _ _ he ht => ht.tail he) .refl
  rw [gcCb, Comp.Leaves, wp_bind, wp_deref]
  refine ⟨fun _ => ?_, fun _ => trivial⟩
  cases ht : (s.obj ko).koType with
  | segment => exact hrun fun _ => Acts.moves fun _ => segmentGcCb_acts _
  | addressTree => exact hrun fun _ => Acts.moves fun _ => atGcCb_acts _
  | processor => exact hrun fun _ => processorGcCb_moves (.inl ⟨rfl, .inr ht⟩) _
  | share =>
    dsimp only
    rw [shareGcCb, wp_bind, wp_derefAs_any]
    intro _ _
    rw [wp_bind, shareInfos, wp_bind, wp_derefAs_any]
    intro _ _
    refine Steps.wp_keeps (Steps.seq (Steps.forEach_mem _ fun i hi => ?_) ?_)
      (fun _ _ he ht => ht.tail he) .refl
    · obtain ⟨e, he, rfl⟩ := List.mem_map.mp hi
      exact Tracks.steps fun _ _ _ => dropMember_moves (.inl ⟨rfl, .inl ht⟩) _
        (.inr ⟨_, List.mem_map.mpr ⟨e, he, rfl⟩, rfl, ht⟩)
    · exact Tracks.steps fun _ _ _ => freeShare_moves _
  | device => exact .refl

lemma gcCb_asks {n : ℕ} {ok : ℕ → Prop} {base : List ℕ} (ko : Kobj) :
    Asking n ok base (gcCb ko) :=
  Tracks.asking (R := Move Set.univ) fun _ => .bind (deref_acts _) fun o => by
    cases o.koType with
    | segment => exact Acts.moves fun _ => segmentGcCb_acts _
    | addressTree => exact Acts.moves fun _ => atGcCb_acts _
    | processor => exact processorGcCb_moves (Set.mem_univ _) _
    | share =>
      exact .derefAs fun _ => .bind (shareInfos_acts _) fun _ =>
        .seq (.forEach (fun _ => dropMember_moves (Set.mem_univ _) _ (Set.mem_univ _)) _)
          (freeShare_moves _)
    | device => exact .done _

/-! ### New processors -/

lemma processorAlloc_acts (hk : .birth .processor ∈ K) (pid : ℕ) :
    Acts K b (processorAlloc pid) := by
  have hclaim : Reads (Effect K) b (fun _ => b.ok pid) (allocProcessor pid) := by
    refine .bind_of .state fun s t hs hst => ?_
    subst hst
    by_cases hpid : s.ncpu ≤ pid
    · rw [if_pos hpid]
      exact hs
    · rw [if_neg hpid]
      have hok : b.ok pid := hs.2.cpus pid (hs.2.ncpu ▸ Nat.lt_of_not_le hpid)
      refine (?_ : Reads (Effect K) b (fun _ => b.ok pid) _) s hs
      exact .ite (.raise _) (Gives.mono (globals_acts fun _ => rfl)
        fun _ _ _ _ => hok)
  exact .bind_val hclaim fun _ h =>
    .bind (.onErr (kobjectAlloc_acts hk h) (freeProcessor_acts _)) fun _ =>
      .seq (modProcessor_acts (fun _ => rfl) (fun _ => rfl) fun _ _ => h) (.done _)

lemma processorStart_acts (hk : .start ∈ K) (ps a : Kobj) (uc : UContext) :
    Acts K b (processorStart ps a uc) := by
  refine .of (fun s _ => state_of_wp (I := ReflTransGen (Effect K) s) ?_)
    (processorStart_asks _ _ _)
  simp only [processorStart, atAttach, modTree, modProcessor, wp_rules, wp_derefAs, wp_getObj]
  refine ⟨fun hl ht => ?_, fun _ _ => .refl, fun _ => .refl⟩
  have hattach : Effect K s (s.modObj a fun o => { o with tree := { o.tree with
      atPsList := ps :: o.tree.atPsList } }) :=
    .quiet (.modObj (s := s) ⟨rfl, id⟩ s.forest)
  refine .tail (.tail (.single hattach) (.start hk (p := ps) (a := a) (g := fun p => { p with
    psAt := some a, psAtref := uc.ucAt, psMode := uc.ucMode, psRunning := true, psHalt := false })
    ?_ ?_ fun _ => rfl)) (.quiet (.of_obj rfl rfl))
  · rwa [Machine.live, modObj_self]
  · rwa [modObj_self]

section

variable (ha : .act ∈ K) (hr : .ref ∈ K)

include ha hr in
lemma processorVector_acts (hk : .start ∈ K) (ps : Kobj) (uc : UContext) :
    Acts K b (processorVector ps uc) :=
  .derefAs fun _ => .ite (.raise _) <|
    .seq (.forEach (fun _ => .bind theProcessor_acts fun _ =>
      .bind (processorCoObj_acts ha _ _ _) fun _ => sharemapAdd_acts hr _ _) _) <|
      .bind (processorCoObj_acts ha _ _ _) fun _ => .seq (.check _) (processorStart_acts hk _ _ _)

lemma processorSetDevice_acts (ps : Kobj) (i : ℕ) (o : SobjRef) :
    Acts K b (processorSetDevice ps i o) :=
  .derefAs fun _ => .ite (.raise _) <| .ite (.halt _) <|
    modProcessor_acts (fun _ => rfl) (fun _ => rfl) fun _ h => h

include ha hr in
lemma monitorStart_acts : Acts K b monitorStart :=
  .bind theProcessor_acts fun _ => .derefAs fun _ => .seq (.check _) <|
    .loop (fun _ => .derefAs fun _ => .ite (.done _) <|
      .bind (.attempt (processorCoObj_acts ha _ _ _)) fun
        | .error _ => .done _
        | .ok dv => .seq (kobjectIncref_acts hr dv) <| .bind archCpu_acts fun cpu =>
            globals_acts (f := fun s => { s with
              monitors := Function.update s.monitors cpu (dv :: s.monitors cpu) }) fun _ =>
                rfl) _ _

/-! ### Devices and calls -/

lemma deviceAlloc_acts (hk : .birth .device ∈ K) (h : b.ok pid) (did : ℕ) :
    Acts K b (deviceAlloc did pid) :=
  .bind .state fun _ => .ite (.raise _) <| .ite (.raise _) <|
    .seq (globals_acts fun _ => rfl) <|
      .bind (kobjectAlloc_acts hk h) fun _ => .seq (modObj_acts (fun _ => ⟨rfl, id⟩) fun _ ho =>
        ⟨ho.koPid, ho.share, ho.processor⟩) (.done _)

include ha hr in
lemma deviceConf_acts (dv : Kobj) (udc : UDeviceConf) : Acts K b (deviceConf dv udc) :=
  .bind (derefAs_acts _ _) fun o => by
    cases udc with
    | sysmon seg offset numSlots =>
      exact .bind theProcessor_acts fun _ => .ite (.raise _) <| .ite (.raise _) <|
        .bind (processorCoObj_acts ha _ _ _) fun _ =>
          .bind (segmentGetPage_acts _ _ _) fun _ => globals_acts fun _ => rfl
    | sysmonNic seg nic =>
      exact .bind theProcessor_acts fun _ => .bind .state fun _ => .ite (.raise _) <|
        .bind (processorCoObj_acts ha _ _ _) fun _ =>
          .bind (processorCoObj_acts ha _ _ _) fun _ =>
            .seq (kobjectIncref_acts hr _) <| .seq (kobjectIncref_acts hr _) <|
              globals_acts fun _ => rfl

include ha hr in
lemma sysShareAddref_acts (src : Kobj) (dstSh srcSh obj : ℕ) :
    Acts K b (sysShareAddref src dstSh srcSh obj) :=
  .bind (sharemapGet_acts _ _) fun _ => .bind (sharemapGet_acts _ _) fun _ =>
    .bind (shareCoObj_acts ha _ _ _) fun _ => .deref fun _ =>
      .ite (.raise _) (.seq (shareImportObj_acts hr _ _) (.done _))

include hr in
lemma imported_acts {m : KM Kobj} (h : Acts K b m) (src : Kobj) (sh : ℕ) : Acts K b (do
      let ko ← m
      processorImportObj src sh ko
      idOf ko) :=
  .bind h fun _ => .seq (processorImportObj_acts hr _ _ _) (idOf_acts _)

include ha in
lemma looked_acts {m : Kobj → KM ℕ} (h : ∀ ko, Acts K b (m ko)) (src : Kobj) (r : SobjRef)
    (type : Option KobjType) : Acts K b (do
      let ko ← processorCoObj src r type
      m ko) :=
  .bind (processorCoObj_acts ha _ _ _) h

end

/-- What a call can do. -/
def Syscall.kinds : Syscall → List Kind
  | .deviceAlloc _ _ _ => [.birth .device, .ref]
  | .shareAlloc _ _ _ => [.birth .share, .ref]
  | .segmentAlloc _ _ _ => [.birth .segment, .ref]
  | .segmentCopy _ _ _ _ => [.act, .birth .segment, .ref]
  | .processorAlloc _ _ => [.birth .processor, .ref]
  | .atAlloc _ _ _ => [.birth .addressTree, .ref]
  | .processorVector _ _ => [.act, .ref, .start]
  | .processorHalt _ => [.act, .halt]
  | .selfDropShare _ => [.dropShare, .halt]
  | _ => [.act, .ref]

/-- The id of a CPU that a call names, unless the call checks it; ids are 32 bits wide. -/
def Syscall.pid? : Syscall → Option ℕ
  | .deviceAlloc _ _ pid => some (pid % word32)
  | .shareAlloc _ _ pid => some (pid % word32)
  | .segmentAlloc _ _ pid => some (pid % word32)
  | .segmentCopy _ _ _ pid => some (pid % word32)
  | .atAlloc _ _ pid => some (pid % word32)
  | _ => none

lemma sysSelfDropShare_moves (hk : .dropShare ∈ K) (hh : .halt ∈ K) (src : Kobj) (sh : ℕ) :
    Makes K b (sysSelfDropShare src sh) := by
  have htype : ∀ (s s' : Machine) (p : Kobj), Move {.dropShare, .halt} s s' →
      (s.obj p).koType = .share → (s'.obj p).koType = .share := by
    intro s s' p hm hp
    refine hm.keeps (I := fun s => (s.obj p).koType = .share) (fun t t' he ht => ?_) hp
    obtain hkin | ⟨-, -, hbirth⟩ := he.kin (by simp) p
    · exact hkin.2.2.trans ht
    · simp at hbirth
  have hdrop : ∀ b, Makes {.dropShare, .halt} b (sysSelfDropShare src sh) := fun _ =>
    .seq (sharemapRemove_acts (fun _ _ he => .effect (he.mono (by simp))) htype
      (fun _ => processorHalt_moves (by simp)) _ _) (.done _)
  exact Tracks.mono (fun _ _ => Move.mono (by simp [Set.insert_subset_iff, hk, hh]))
    fun _ => hdrop _

lemma kernSyscall_acts (hK : ∀ k ∈ c.kinds, k ∈ K) (hh : .halt ∉ c.kinds) (src : Kobj)
    (hp : ∀ pid ∈ c.pid?, b.ok pid) : Acts K b (kernSyscall src c) := by
  have har (h : c.kinds = [.act, .ref]) : .act ∈ K ∧ .ref ∈ K := by simpa [h] using hK
  cases c with
  | deviceAlloc sh did pid =>
    obtain ⟨hb, hr⟩ : .birth .device ∈ K ∧ .ref ∈ K := by simpa [Syscall.kinds] using hK
    exact imported_acts hr (deviceAlloc_acts hb (hp _ rfl) _) _ _
  | shareAlloc sh mask pid =>
    obtain ⟨hb, hr⟩ : .birth .share ∈ K ∧ .ref ∈ K := by simpa [Syscall.kinds] using hK
    exact .bind (shareAlloc_acts hb (hp _ rfl) _) fun _ =>
      .seq (processorImportObj_acts hr _ _ _) <| .seq (sharemapAdd_acts hr _ _) (idOf_acts _)
  | segmentAlloc sh numBytes pid =>
    obtain ⟨hb, hr⟩ : .birth .segment ∈ K ∧ .ref ∈ K := by simpa [Syscall.kinds] using hK
    exact .bind (segmentAlloc_acts hb (hp _ rfl)) fun _ => .seq (segmentSetNbytes_acts _ _) <|
      .seq (processorImportObj_acts hr _ _ _) (idOf_acts _)
  | segmentCopy dstSh obj mode pid =>
    obtain ⟨ha, hb, hr⟩ : .act ∈ K ∧ .birth .segment ∈ K ∧ .ref ∈ K := by
      simpa [Syscall.kinds] using hK
    exact looked_acts ha (fun _ => imported_acts hr (segmentCopy_acts hb (hp _ rfl) _ _) _ _) _ _ _
  | processorAlloc sh pid =>
    obtain ⟨hb, hr⟩ : .birth .processor ∈ K ∧ .ref ∈ K := by simpa [Syscall.kinds] using hK
    exact imported_acts hr (processorAlloc_acts hb _) _ _
  | atAlloc sh interior pid =>
    obtain ⟨hb, hr⟩ : .birth .addressTree ∈ K ∧ .ref ∈ K := by simpa [Syscall.kinds] using hK
    exact imported_acts hr (atAlloc_acts hb (hp _ rfl) _) _ _
  | processorVector obj uc =>
    obtain ⟨ha, hr, hs⟩ : .act ∈ K ∧ .ref ∈ K ∧ .start ∈ K := by simpa [Syscall.kinds] using hK
    exact looked_acts ha (fun _ => .seq (processorVector_acts ha hr hs _ _) (.done _)) _ _ _
  | deviceConf devref udc =>
    obtain ⟨ha, hr⟩ := har rfl
    exact looked_acts ha (fun _ => .seq (deviceConf_acts ha hr _ _) (.done _)) _ _ _
  | objGetName obj =>
    exact looked_acts (har rfl).1 (fun _ => .deref fun _ => .done _) _ _ _
  | shareAddref dstSh srcSh obj => exact sysShareAddref_acts (har rfl).1 (har rfl).2 _ _ _ _
  | shareUnref sh obj => exact .seq (processorRemoveObj_acts (har rfl).1 _ _) (.done _)
  | segmentGetNbytes obj =>
    exact looked_acts (har rfl).1 (fun _ => .bind (segmentGetNpage_acts _) fun _ => .done _) _ _ _
  | segmentSetNbytes obj nbytes =>
    exact looked_acts (har rfl).1 (fun _ => .seq (segmentSetNbytes_acts _ _) (.done _)) _ _ _
  | processorSetInterval _ | atGet _ =>
    exact looked_acts (har rfl).1 (fun _ => .derefAs fun _ => .done _) _ _ _
  | processorSetDevice psref i devref =>
    exact looked_acts (har rfl).1 (fun _ => .seq (processorSetDevice_acts _ _ _) (.done _)) _ _ _
  | atSet atref ents =>
    exact looked_acts (har rfl).1 (fun _ => .seq (atFromUser_acts _ _) (.done _)) _ _ _
  | atSetSlot atref uam =>
    exact looked_acts (har rfl).1 (fun _ => .seq (atSetUslot_acts _ _) (.done _)) _ _ _
  | processorHalt _ | selfDropShare _ => exact absurd (by simp [Syscall.kinds]) hh

lemma kernSyscall_moves (src : Kobj) (hp : ∀ pid ∈ c.pid?, b.ok pid) :
    Makes {k | k ∈ c.kinds} b (kernSyscall src c) := by
  by_cases hh : .halt ∈ c.kinds
  · cases c with
    | processorHalt obj =>
      exact .bind (Acts.moves fun _ => processorCoObj_acts List.mem_cons_self _ _ _) fun _ =>
        .bind (processorHalt_moves hh _) fun _ => .done _
    | selfDropShare sh => exact sysSelfDropShare_moves List.mem_cons_self hh _ _
    | _ => simp [Syscall.kinds] at hh
  · exact Acts.moves fun _ => kernSyscall_acts (fun _ => id) hh src hp

/-! ### The acts of a CPU -/

def Act.syscall? : Act → Option Syscall
  | .syscall c => some c
  | .poll _ c => some c
  | _ => none

/-- What an act can do, those of the collector and of `share_action_scan` apart. -/
def Act.kinds : Act → List Kind
  | .syscall c => c.kinds
  | .poll _ c => c.kinds
  | .monitor => [.act, .ref]
  | .halt => [.halt]
  | .fault _ _ _ => [.fault]
  | .scan => []
  | .gc => []

lemma act_moves {a : Act} (hg : a ≠ .gc) (hs : a ≠ .scan)
    (hp : ∀ c ∈ a.syscall?, ∀ pid ∈ c.pid?, b.ok pid) : Makes {k | k ∈ a.kinds} b a.body := by
  cases a with
  | syscall c =>
    exact .bind theProcessor_acts fun _ => .bind (kernSyscall_moves _ (hp c rfl))
      fun _ => .done _
  | fault fuel va req =>
    refine Tracks.of (.of_rel fun _ _ => .effect (.fault List.mem_cons_self _)) ?_
    exact Tracks.asking fun _ => .bind theProcessor_acts fun _ => .derefAs fun _ =>
      .bind (.need _ _) fun _ => atPagefault_acts _ _ _ _
  | halt =>
    exact .bind theProcessor_acts fun _ =>
      .bind (processorHalt_moves List.mem_cons_self _) fun _ => .done _
  | scan => exact absurd rfl hs
  | gc => exact absurd rfl hg
  | monitor =>
    exact Acts.moves fun _ => monitorStart_acts (by simp [Act.kinds]) (by simp [Act.kinds])
  | poll dv c =>
    exact .bind archCpu_acts fun _ => .bind .state fun _ => .seq (.check _) <|
      .derefAs fun _ => .bind (.need _ _) fun _ =>
        .bind (.attempt (kernSyscall_moves _ (hp c rfl))) fun _ => .done _

/-- The processor a call is executed for, and the call. -/
def Act.call (s : Machine) : Act → Option (Kobj × Syscall)
  | .syscall c => (s.processors s.mem.cpu).map (·, c)
  | .poll dv c =>
    if dv ∈ s.monitors s.mem.cpu ∧ s.live dv = true ∧ (s.obj dv).koType = .device then
      (s.sysmon (s.obj dv).dv.dvDh).src.map (·, c)
    else none
  | _ => none

lemma act_steps {a : Act} (hg : a ≠ .gc) (hs : a ≠ .scan) : Steps (Move {k | k ∈ a.kinds}) a.body :=
  Tracks.steps fun _ _ _ => act_moves hg hs fun _ _ _ _ => trivial

end Corey.Kern
