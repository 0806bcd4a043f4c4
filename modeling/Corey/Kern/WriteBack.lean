import Corey.Kern.UserTable

/-!
Reading the table of an address tree and writing it back (`kern/at.c`).

A table is read without the slots that are not in use, and written with new numbers. What an
address is translated to is decided by the first slot that serves it, so it is the same for a
table and for what is left of it.
-/

namespace Corey.Kern

open Function Corey.Comp Corey.Mem List

variable {s s' t : Machine} {x x' : Machine × UserTable} {a b : Kobj} {fuel uat va req n : ℕ}
  {u : UAddressMapping} {α : Type} {m : KM α} {slots : ℕ → UAddressMapping}

/-! ### Tables as lists -/

def slotList (slots : ℕ → UAddressMapping) (i k : ℕ) : List UAddressMapping :=
  (List.range' i k).map slots

lemma slotList_succ (slots : ℕ → UAddressMapping) (i k : ℕ) :
    slotList slots i (k + 1) = slots i :: slotList slots (i + 1) k := by
  rw [slotList, range'_succ, map_cons]
  rfl

lemma scanSlots_eq_find (slots : ℕ → UAddressMapping) (va req : ℕ) : ∀ k i,
    (scanSlots slots va req k i).map slots = (slotList slots i k).find? (·.serves va req)
  | 0, _ => rfl
  | k + 1, i => by
    rw [scanSlots, slotList_succ, find?_cons]
    cases (slots i).serves va req with
    | true => rfl
    | false => exact scanSlots_eq_find slots va req k (i + 1)

def UAddressMapping.used (u : UAddressMapping) : Bool := u.flags ≠ 0

lemma used_of_serves (h : u.serves va req = true) : u.used = true := by
  simp only [UAddressMapping.serves, Bool.and_eq_true] at h
  have hread := h.1.1.1
  simp only [UAddressMapping.used, decide_eq_true_eq]
  intro h0
  rw [h0] at hread
  exact absurd hread (by decide)

lemma find_used (l : List UAddressMapping) :
    (l.filter UAddressMapping.used).find? (·.serves va req) = l.find? (·.serves va req) := by
  rw [find?_filter]
  refine congrArg (fun p => l.find? p) (funext fun u => ?_)
  cases hu : u.serves va req with
  | true => simp [used_of_serves hu]
  | false => simp

/-! ### Reading -/

lemma copyOut_ok (slots : ℕ → UAddressMapping) (size : ℕ) : ∀ (k i nent : ℕ)
    (x : Machine × UserTable),
    wp (copyOut slots size k i nent) (fun r y => y.1 = x.1 ∧ y.2.ents = x.2.ents ∧
      slotList y.2.slots 0 r = slotList x.2.slots 0 nent ++
        (slotList slots i k).filter UAddressMapping.used ∧
      ∀ j, i ≤ j → j < i + k → (slots j).flags ≠ 0 → (slots j).kslot = j) .any x
  | 0, i, nent, x => ⟨rfl, rfl, by simp [slotList], fun j h1 h2 => by omega⟩
  | k + 1, i, nent, x => by
    rw [copyOut, wp_ite]
    refine ⟨fun h0 => ?_, fun hflags => ?_⟩
    · refine wp_post (copyOut_ok slots size k (i + 1) nent x) fun r y ht => ?_
      obtain ⟨h1, h2, h3, h4⟩ := ht
      refine ⟨h1, h2, ?_, fun j hj hlt hne => h4 j ?_ (by omega) hne⟩
      · rw [h3, slotList_succ, filter_cons_of_neg (by simp [UAddressMapping.used, h0])]
      · rcases Nat.lt_or_eq_of_le hj with hj | rfl
        · exact hj
        · exact absurd h0 hne
    · simp only [writeEnt, wp_rules, implies_true, and_true, true_and]
      intro hk hlt
      refine wp_post (copyOut_ok slots size k (i + 1) (nent + 1) _) fun r y ht => ?_
      obtain ⟨h1, h2, h3, h4⟩ := ht
      refine ⟨h1, h2, ?_, fun j hj hjlt hne => ?_⟩
      · have hset : slotList (update x.2.slots nent (slots i)) 0 (nent + 1) =
            slotList x.2.slots 0 nent ++ [slots i] := by
          rw [slotList, range'_concat, map_append]
          refine congrArg₂ _ (map_congr_left fun j hj => ?_) (by simp)
          have hlt := mem_range'_1.mp hj
          exact update_of_ne (by omega) _ _
        rw [h3, hset, slotList_succ, filter_cons_of_pos (by simp [UAddressMapping.used, hflags]),
          append_assoc, singleton_append]
      · rcases Nat.lt_or_eq_of_le hj with hj | rfl
        · exact h4 j hj (by omega) hne
        · exact hk

/-! ### What a check leaves alone -/

abbrev SameSlots : Machine → Machine → Prop :=
  Same (fun o => (o.tree.uaddrmap, o.tree.atUtrap)) fun s p => s.darray (atUaddrmap p)

namespace SameSlots

variable (h : SameSlots s s') (p : Kobj)
include h

lemma uaddrmap : (s'.obj p).tree.uaddrmap = (s.obj p).tree.uaddrmap := congrArg (·.1) (h.obj p)

lemma atUtrap : (s'.obj p).tree.atUtrap = (s.obj p).tree.atUtrap := congrArg (·.2) (h.obj p)

lemma nents : s'.darray (atUaddrmap p) = s.darray (atUaddrmap p) := congrFun h.rest p

omit h

lemma of_user (h : SameUser s s') : SameSlots s s' := h.map (fun x => (x.1, x.2.2)) id

lemma of_spares (h : Spares s s') : SameSlots s s' :=
  ⟨fun p => by rw [← (h.obj p).tree], by rw [← h.rest]⟩

end SameSlots

abbrev KeepsSlots {α : Type} (m : KM α) : Prop := Steps SameSlots m

lemma KeepsSlots.ok (h : KeepsSlots m) (s : Machine) : wp m (fun _ t => SameSlots s t) .any s :=
  Same.ok (.refl s) h

lemma keepsSlots_of_trees (h : Steps SameTrees m) : KeepsSlots m :=
  h.mono fun _ _ h => .of_user h.user

lemma keepsSlots_of_flushes (h : Steps Flushes m) : KeepsSlots m :=
  h.mono fun _ _ h => .of_spares h.toSpares

lemma chooseSlot_slots (a : Kobj) (va req : ℕ) : KeepsSlots (chooseSlot a va req) :=
  .bind (derefAs_quiet _ _) fun o => .bind .state fun s => by
    cases (s.atRange a).hit o.tree.uaddrmap va req with
    | some i => exact .pure _
    | none =>
      refine .bind (atNents_quiet a) fun n =>
        .bind (.of_quiet fun _ => rfl) fun o => ?_
      cases scanSlots o.tree.uaddrmap va req n 0 with
      | none => exact .raise _
      | some i => exact .seq (.change fun _ => .of_objects rfl rfl) (.pure _)

lemma findTarget_slots : ∀ (fuel : ℕ) (a : Kobj) (va req : ℕ),
    KeepsSlots (findTarget fuel a va req)
  | 0, _, _, _ => .halt _
  | fuel + 1, _, _, _ => .bind (chooseSlot_slots _ _ _) fun _ => .bind (.of_quiet fun _ => rfl)
      fun _ => .ite (.bind ((fillInterior_relinked _ _ _).mono fun _ _ h => .of_user h.user)
        fun _ => findTarget_slots fuel _ _ _) (keepsSlots_of_trees (fillSegment_trees _ _ _))

lemma pgdirWalkIn_slots (a : Kobj) (va pid : ℕ) : KeepsSlots (pgdirWalkIn a va pid) :=
  .derefAs fun _ => .bind (.need _ _) fun _ => .seq (.require _) <|
    (onPagemap_relinked _ _).mono fun _ _ h => .of_user h.user

lemma asArchPutpage_slots (a : Kobj) (va pid : ℕ) (e : Pte) :
    KeepsSlots (asArchPutpage a va pid e) :=
  .bind (pgdirWalkIn_slots _ _ _) fun
    | none => keepsSlots_of_flushes (modTree_flushes fun _ => rfl)
    | some _ => .bind (.derefAs fun _ => .bind (.need _ _) fun _ =>
        .ite (.halt _) (pgdirWalkIn_slots _ _ _)) fun _ =>
          keepsSlots_of_flushes (modTree_flushes fun _ => rfl)

lemma atPagefault_slots (fuel : ℕ) (a : Kobj) (va req : ℕ) :
    KeepsSlots (atPagefault fuel a va req) :=
  .onErr (.bind (findTarget_slots _ _ _ _) fun _ =>
    .bind (keepsSlots_of_trees (segmentFaultPage_trees _ _ _)) fun _ =>
      .derefAs fun _ => asArchPutpage_slots _ _ _ _)
    (keepsSlots_of_flushes (kobjCacheFlush_flushes _))

lemma pageLookup_slots (a : Kobj) (va : ℕ) : KeepsSlots (pageLookup a va) := by
  refine .bind (derefAs_quiet _ _) fun o => ?_
  cases o.tree.atPgmap with
  | none => exact .pure _
  | some pm =>
    refine .seq (.require _) (.ite ?_ ?_)
    · rw [lookupInner]
      cases ((pm.inner (pdx 3 va)).sub (pdx 2 va)).pte? with
      | none => exact .pure _
      | some e =>
        dsimp only
        cases e.src with
        | page sg n =>
          exact .bind .state fun _ => .ite (.pure _) (.ite (.halt _) (.pure _))
        | root b => exact .halt _
    · cases pm.linkAt va with
      | none => exact .pure _
      | some b =>
        exact .derefAs fun _ => .bind (.need _ _) fun _ =>
          .ite (.halt _) (.pure _)

lemma checkUserAccess_slots (fuel : ℕ) (a : Kobj) (ptr nbytes req : ℕ) :
    KeepsSlots (checkUserAccess fuel a ptr nbytes req) :=
  .derefAs fun _ => .ite (.pure _) <| .ite (.raise _) <| .loop (fun _ =>
    .ite (.raise _) <| .bind (pageLookup_slots _ _) fun _ =>
      .ite (.pure _) (atPagefault_slots _ _ _ _)) _ _

lemma currentTree_slots : KeepsSlots currentTree :=
  .bind theProcessor_quiet fun _ =>
    .derefAs fun _ => .need _ _

lemma kern_steps {R : Machine → Machine → Prop} (h : Steps R m) :
    Steps (fun x y : Machine × UserTable => R x.1 y.1) (kern m) :=
  h.zoom (fun _ => rfl) fun _ _ _ h => h

lemma atCheckUat_slots (fuel : ℕ) (a : Kobj) (uat : ℕ) :
    Steps (fun x y : Machine × UserTable => SameSlots x.1 y.1) (atCheckUat fuel a uat) :=
  .seq (kern_steps (checkUserAccess_slots _ _ _ _ _)) <| .bind .state fun _ =>
    .seq (kern_steps (checkUserAccess_slots _ _ _ _ _)) (.ite (.raise _) (.pure _))

lemma atCheckUat_ok (x : Machine × UserTable) :
    wp (atCheckUat fuel a uat) (fun _ y => SameSlots x.1 y.1 ∧ y.2 = x.2) .any x :=
  wp_weaken (wp_and ((atCheckUat_slots fuel a uat).wp_any
    (fun _ _ hR hI => hI.trans hR) (.refl x.1)) (atCheckUat_same (I := fun _ => True)
      trivial)) fun _ _ => id

lemma atToUser_ok (x : Machine × UserTable) :
    wp (atToUser fuel a uat) (fun _ y => SameSlots x.1 y.1 ∧
      slotList y.2.slots 0 y.2.nent = (slotList (x.1.obj a).tree.uaddrmap 0
        (x.1.darray (atUaddrmap a)).daNent).filter UAddressMapping.used ∧
      y.2.trap = (x.1.obj a).tree.atUtrap ∧
      ∀ j < (x.1.darray (atUaddrmap a)).daNent, ((x.1.obj a).tree.uaddrmap j).flags ≠ 0 →
        ((x.1.obj a).tree.uaddrmap j).kslot = j) .any x := by
  simp only [atToUser, wp_bind]
  refine wp_post (kern_ok (currentTree_slots.ok x.1)) fun _ y ⟨hy, _⟩ => ?_
  refine wp_post (atCheckUat_ok y) fun _ z ⟨hz, _⟩ => ?_
  have hxz : SameSlots x.1 z.1 := hy.trans hz
  refine wp_post (kern_ok (atNents_ok a z.1)) fun n v ⟨⟨hvz, hn⟩, _⟩ => ?_
  rw [hxz.nents] at hn
  rw [wp_state, hvz, hxz.uaddrmap, hn]
  refine wp_post (copyOut_ok _ _ _ 0 0 v) fun r u ⟨hu, _, hlist, hk⟩ => ?_
  simp only [wp_change]
  rw [hu, hvz]
  refine ⟨hxz, ?_, hxz.atUtrap a, fun j hj hne => hk j (Nat.zero_le _) (by omega) hne⟩
  simpa [slotList] using hlist

/-! ### Writing -/

lemma slotList_getElem? (slots : ℕ → UAddressMapping) (k i : ℕ) :
    (slotList slots 0 k)[i]? = if i < k then some (slots i) else none := by
  rw [slotList, getElem?_map]
  by_cases h : i < k
  · rw [if_pos h, getElem?_range' h]
    simp
  · rw [if_neg h, getElem?_eq_none (by simpa using h)]
    rfl

lemma copyIn_ok (a : Kobj) (nent i : ℕ) (x : Machine × UserTable) :
    wp (copyIn a nent i) (fun _ y => y.1 = x.1.modObj a (fun o => { o with tree := { o.tree with
        uaddrmap := update o.tree.uaddrmap i (newSlots (slotList x.2.slots 0 nent) i) } }) ∧
      ∀ j ≠ i, y.2.slots j = x.2.slots j) .any x := by
  have hnew : newSlots (slotList x.2.slots 0 nent) i =
      if i < nent then { (x.2.slots i).sanitize with kslot := i % word32 } else {} := by
    rw [newSlots, slotList_getElem?]
    by_cases h : i < nent
    · rw [if_pos h, if_pos h]
    · rw [if_neg h, if_neg h]
  rw [copyIn, wp_ite, hnew]
  refine ⟨fun h => ?_, fun h => ?_⟩
  · simp only [readEnt, writeEnt, kern, setUaddrmap, wp_rules, wp_zoom, wp_modTree, if_pos h]
    exact ⟨trivial, fun j hj => update_of_ne hj _ _⟩
  · simp only [kern, setUaddrmap, wp_zoom, wp_modTree, if_neg h, implies_true, and_true]

lemma copyIns_ok (a : Kobj) (nent n : ℕ) (x : Machine × UserTable) :
    wp (loop (copyIn a nent) 0 n) (fun _ y => y.1.darray = x.1.darray ∧
      ∀ i < n, (y.1.obj a).tree.uaddrmap i = newSlots (slotList x.2.slots 0 nent) i)
      .any x := by
  -- below the current slot the table is the new one, and the user's entries from it on are unread
  refine wp_post (wp_loop (fun j y => y.1.darray = x.1.darray ∧
    (∀ i < j, (y.1.obj a).tree.uaddrmap i = newSlots (slotList x.2.slots 0 nent) i) ∧
    ∀ i, j ≤ i → y.2.slots i = x.2.slots i) n 0 x
    ⟨rfl, fun i hi => absurd hi (Nat.not_lt_zero i), fun _ _ => rfl⟩ ?_) fun _ y hy => ?_
  · intro j y _ _ ⟨hd, hdone, hrest⟩
    refine wp_post (copyIn_ok a nent j y) fun _ z ⟨hz, hslots⟩ => ?_
    refine ⟨by rw [hz]; exact hd, fun i hi => ?_, fun i hi => ?_⟩
    · rw [hz, modObj_self]
      dsimp only
      by_cases hij : i = j
      · rw [hij, update_self, newSlots, newSlots, slotList_getElem?, slotList_getElem?,
          hrest j le_rfl]
      · rw [update_of_ne hij]
        exact hdone i (by omega)
    · rw [hslots i (by omega)]
      exact hrest i (by omega)
  · rw [Nat.zero_add] at hy
    exact ⟨hy.1, hy.2.1⟩

lemma atInvalidate_slots (a ps : Kobj) : KeepsSlots (atInvalidate a ps) :=
  .derefAs fun _ => .derefAs fun _ => .seq (.require _) <|
    .ite (.bind (.of_quiet fun _ => rfl) fun _ => .seq (.require _) <|
      keepsSlots_of_flushes (atInvalidateRange_flushes _ _ _))
      (.pure _)

lemma atFromUserTable_ok (x : Machine × UserTable) :
    wp (atFromUserTable fuel a uat) (fun _ y => x.2.nent ≤ (y.1.darray (atUaddrmap a)).daNent ∧
      (y.1.obj a).tree.atUtrap = x.2.trap ∧
      ∀ i < (y.1.darray (atUaddrmap a)).daNent,
        (y.1.obj a).tree.uaddrmap i = newSlots (slotList x.2.slots 0 x.2.nent) i) .any x := by
  simp only [atFromUserTable, wp_bind]
  refine wp_post (kern_ok (currentTree_slots.ok x.1)) fun _ y ⟨_, hy⟩ => ?_
  refine wp_post (atCheckUat_ok y) fun _ z ⟨_, hz⟩ => ?_
  rw [wp_state, hz, hy]
  refine wp_post (kern_ok (makeRoom_ok a x.2.nent z.1)) fun n v ⟨⟨hn, hle⟩, hv⟩ => ?_
  have hvx : v.2 = x.2 := hv.trans (hz.trans hy)
  refine wp_post (copyIns_ok a x.2.nent n v) fun _ u ⟨hd, hslots⟩ => ?_
  rw [hvx] at hslots
  simp only [kern, wp_zoom, wp_modTree]
  refine wp_weaken (KeepsSlots.ok (derefAs_quiet .addressTree a) _) fun o r hr => ?_
  refine wp_weaken (KeepsSlots.ok (.forEach (atInvalidate_slots a) o.tree.atPsList) r)
    fun _ q hq => ?_
  have hsame : SameSlots _ q := hr.trans hq
  have hnents : (q.darray (atUaddrmap a)).daNent = n := by
    rw [hsame.nents, hn, ← hd]
    rfl
  rw [hnents]
  refine ⟨hle, ?_, fun i hi => ?_⟩
  · rw [hsame.atUtrap, modObj_self]
  · rw [hsame.uaddrmap, modObj_self]
    exact hslots i hi

/-! ### Tables that have been built -/

/-- Interior slots cover the whole tree they map, and `kslot` is 32 bits wide. -/
def Tidy (s : Machine) (a : Kobj) : Prop :=
  ∀ i < (s.darray (atUaddrmap a)).daNent, ((s.obj a).tree.uaddrmap i).sanitize =
    (s.obj a).tree.uaddrmap i ∧ ((s.obj a).tree.uaddrmap i).kslot < word32

lemma SameSlots.tidy (h : SameSlots s s') (ht : Tidy s a) : Tidy s' a := by
  intro i hi
  rw [h.nents] at hi
  rw [h.uaddrmap]
  exact ht i hi

lemma sanitize_setKslot (u : UAddressMapping) (k : ℕ) :
    ({ u.sanitize with kslot := k } : UAddressMapping).sanitize =
      { u.sanitize with kslot := k } := by
  by_cases h : u.type = addressMappingInterior
  · simp [UAddressMapping.sanitize, h]
  · simp [UAddressMapping.sanitize, h]

lemma sanitize_kslot (u : UAddressMapping) : u.sanitize.kslot = u.kslot := by
  rw [UAddressMapping.sanitize]
  split_ifs <;> rfl

lemma setUaddrmap_tidy {i : ℕ} (hu : u.sanitize = u) (hk : u.kslot < word32) :
    Steps (fun s s' => Tidy s a → Tidy s' a) (setUaddrmap a i u) := .change fun s hs j hj => by
  rw [modObj_self]
  dsimp only
  by_cases hij : j = i
  · rw [hij, update_self]
    exact ⟨hu, hk⟩
  · rw [update_of_ne hij]
    exact hs j hj

lemma atResize_tidy (a : Kobj) (n : ℕ) :
    Steps (fun s s' => Tidy s a → Tidy s' a) (atResize a n) := .of_wp fun s => by
  refine wp_mono (atResize_ok a n s) (fun _ t ht hs i hi => ?_) fun _ t ht hs i hi => ?_
  · rw [ht.2 i]
    split_ifs with hnew
    · exact ⟨rfl, by decide⟩
    · exact hs i (by omega)
  · rw [ht.2] at hi
    rw [ht.1]
    exact hs i hi

abbrev KeepsTidy (a : Kobj) {α : Type} (m : KM α) : Prop :=
  Steps (fun s s' => Tidy s a → Tidy s' a) m

lemma keepsTidy_of_slots (h : KeepsSlots m) : KeepsTidy a m :=
  h.mono fun _ _ => SameSlots.tidy

lemma atInvalidateUaddrmap_slots (a : Kobj) (u : UAddressMapping) :
    KeepsSlots (atInvalidateUaddrmap a u) :=
  .bind (.attempt (keepsSlots_of_trees (atGetAddrmap_trees _ _))) fun
    | .error _ => .halt _
    | .ok am => by
      dsimp only
      cases am.amKobj with
      | none => exact .pure _
      | some ko =>
        exact keepsSlots_of_flushes (.seq (amlRemove_flushes _ _) (atInvalidateAddrmap_flushes _ _))

lemma atSetUslot_tidy {new : UAddressMapping} (hk : new.kslot < word32) :
    KeepsTidy a (atSetUslot a new) :=
  .bind (atNents_quiet a) fun _ =>
    .join (atResize_tidy _ _) fun _ => .bind (keepsTidy_of_slots (.bind (keepsSlots_of_trees
      (atNents_quiet a)) fun _ => .bind (.of_quiet fun _ => rfl) fun _ =>
        .ite (.raise _) (.pure _))) fun _ =>
      .join (keepsTidy_of_slots (atInvalidateUaddrmap_slots _ _)) fun _ =>
        setUaddrmap_tidy (sanitize_setKslot new _) (by rwa [sanitize_kslot])

lemma copyIn_tidy (nent i : ℕ) :
    Steps (fun x y : Machine × UserTable => Tidy x.1 a → Tidy y.1 a) (copyIn a nent i) :=
  .ite (.bind (.seq (.change fun _ => id) (.bind .state fun _ => .pure _)) fun _ =>
      .seq (.change fun _ => id) (kern_steps (setUaddrmap_tidy (sanitize_setKslot _ _)
        (Nat.mod_lt _ (by decide)))))
    (kern_steps (setUaddrmap_tidy rfl (by decide)))

lemma makeRoom_tidy (nent : ℕ) : KeepsTidy a (makeRoom a nent) :=
  have hnents : KeepsTidy a (atNents a) := atNents_quiet a
  .bind hnents fun _ => .join (atResize_tidy _ _) fun _ =>
    .seq (keepsTidy_of_slots (keepsSlots_of_trees (atClearMappings_trees a))) hnents

lemma keepTrap_tidy (u : Utrap) : KeepsTidy a (modTree a fun t => { t with atUtrap := u }) :=
  .change fun s h i hi => by
    rw [modObj_self]
    exact h i hi

lemma atFromUserTable_tidy :
    Steps (fun x y : Machine × UserTable => Tidy x.1 a → Tidy y.1 a) (atFromUserTable fuel a uat) :=
  .bind (kern_steps (keepsTidy_of_slots currentTree_slots)) fun _ =>
    .seq ((atCheckUat_slots _ _ _).mono fun _ _ => SameSlots.tidy) <| .bind .state fun _ =>
      .bind (kern_steps (makeRoom_tidy _)) fun _ => .seq (.loop (copyIn_tidy _) _ _) <|
        .seq (kern_steps (keepTrap_tidy _)) <|
          .bind (kern_steps (keepsTidy_of_slots (derefAs_quiet _ _))) fun _ =>
            kern_steps (keepsTidy_of_slots (.forEach (atInvalidate_slots a) _))

/-- What can happen to the table of a tree: a slot is set, a whole table is set from what a user's
table holds, or something else is done that leaves all slots alone. -/
inductive TableOp
  | setUslot (new : UAddressMapping) (h : new.kslot < word32)
  | fromUser (fuel uat : ℕ) (w : UserTable)
  | other (m : KM Unit) (h : KeepsSlots m)

/-- The table of a tree, from when it is empty on. Failed calls are steps, too. -/
def tables (a : Kobj) : System Machine TableOp where
  init s := (s.darray (atUaddrmap a)).daNent = 0
  step
    | .setUslot new _, s => (atSetUslot a new).next s
    | .fromUser fuel uat w, s => ((atFromUserTable fuel a uat).next (s, w)).map Prod.fst
    | .other m _, s => m.next s

lemma tidy_of_reachable (hs : (tables a).Reachable s) : Tidy s a := by
  refine System.Reach.invariant (I := (Tidy · a)) (fun s h i hi => ?_)
    (fun s op s' ih _ hstep => ?_) hs
  · rw [show (s.darray (atUaddrmap a)).daNent = 0 from h] at hi
    exact absurd hi (Nat.not_lt_zero i)
  · have hkeep : ∀ s s', (Tidy s a → Tidy s' a) → Tidy s a → Tidy s' a := fun _ _ h => h
    cases op with
    | setUslot new h => exact Steps.keeps hkeep ((atSetUslot_tidy h).of_next hstep) ih
    | fromUser fuel uat w =>
      obtain ⟨x, hx, rfl⟩ := Option.map_eq_some_iff.mp hstep
      exact Steps.keeps (I := fun x : Machine × UserTable => Tidy x.1 a) (fun _ _ h => h)
        (atFromUserTable_tidy.of_next hx) ih
    | other m h => exact Steps.keeps hkeep ((keepsTidy_of_slots h).of_next hstep) ih

/-! ### Back to where it was -/

def UAddressMapping.unnumbered (u : UAddressMapping) : UAddressMapping := { u with kslot := 0 }

/-- What `at_pmap_fill` finds for an address: the object, the page in it and the flags. -/
def UAddressMapping.view (u : UAddressMapping) (va : ℕ) : SobjRef × ℕ × ℕ :=
  (u.object, (u.startPage + (rounddown va pgsize - u.vaStart) / pgsize) % word64, u.flags)

/-- What the scan of all slots finds for an address. -/
def Machine.translate (s : Machine) (a : Kobj) (va req : ℕ) : Option (SobjRef × ℕ × ℕ) :=
  (scanSlots (s.obj a).tree.uaddrmap va req (s.darray (atUaddrmap a)).daNent 0).map fun i =>
    ((s.obj a).tree.uaddrmap i).view va

lemma translate_eq_find (s : Machine) (a : Kobj) (va req : ℕ) :
    s.translate a va req = (((slotList (s.obj a).tree.uaddrmap 0
      (s.darray (atUaddrmap a)).daNent).map UAddressMapping.unnumbered).find?
        (·.serves va req)).map (·.view va) := by
  have hserves : (fun u : UAddressMapping => u.serves va req) ∘ UAddressMapping.unnumbered =
      fun u => u.serves va req := rfl
  have hview : (fun u : UAddressMapping => u.view va) ∘ UAddressMapping.unnumbered =
      fun u => u.view va := rfl
  rw [find?_map, hserves, Option.map_map, hview, ← scanSlots_eq_find, Option.map_map]
  rfl

lemma newSlots_unnumbered {l : List UAddressMapping}
    (hl : ∀ u ∈ l, u.sanitize = u) (hn : l.length ≤ n) (hnew : ∀ i < n, slots i = newSlots l i) :
    (slotList slots 0 n).map UAddressMapping.unnumbered =
      l.map UAddressMapping.unnumbered ++ replicate (n - l.length) ({} : UAddressMapping) := by
  refine ext_getElem? fun i => ?_
  rw [getElem?_map, slotList_getElem?]
  by_cases hi : i < n
  · rw [if_pos hi, hnew i hi, newSlots]
    by_cases hil : i < l.length
    · rw [getElem?_append_left (by simpa using hil), getElem?_map, getElem?_eq_getElem hil]
      simp only [Option.map_some, hl _ (getElem_mem hil)]
      rfl
    · rw [getElem?_append_right (by simpa using hil), getElem?_eq_none (by omega),
        getElem?_replicate_of_lt (by simp; omega)]
      rfl
  · rw [if_neg hi, getElem?_eq_none (by simp; omega)]
    rfl

lemma find_zeros (l : List UAddressMapping) (k va req : ℕ) :
    (l ++ replicate k ({} : UAddressMapping)).find? (·.serves va req) =
      l.find? (·.serves va req) := by
  have hzero : (replicate k ({} : UAddressMapping)).find? (·.serves va req) = none := by
    refine find?_eq_none.mpr fun u hu hserves => ?_
    rw [eq_of_mem_replicate hu] at hserves
    exact absurd (used_of_serves hserves) (by decide)
  rw [find?_append, hzero, Option.or_none]

lemma used_length_le (hk : ∀ j < n, (slots j).flags ≠ 0 → (slots j).kslot = j)
    (hlt : ∀ j < n, (slots j).kslot < word32) :
    ((slotList slots 0 n).filter UAddressMapping.used).length ≤ word32 := by
  rw [slotList, filter_map, length_map]
  have hsub : (range' 0 n).filter (UAddressMapping.used ∘ slots) ⊆ range word32 := by
    intro j hj
    obtain ⟨hmem, hused⟩ := mem_filter.mp hj
    have hjn : j < n := by simpa using mem_range'_1.mp hmem
    have hflags : (slots j).flags ≠ 0 := by simpa [UAddressMapping.used] using hused
    rw [mem_range, ← hk j hjn hflags]
    exact hlt j hjn
  have hnodup : ((range' 0 n).filter (UAddressMapping.used ∘ slots)).Nodup :=
    List.Nodup.filter _ nodup_range'
  have hle := (subperm_of_subset hnodup hsub).length_le
  rwa [length_range] at hle

/-- **A table that is read and written back translates as before.** This holds of every table that
has been built by setting slots and whole tables. What was read of one tree may be written to
another, or to the same tree later on. -/
theorem write_back_keeps_translation {w w1 w' : UserTable} {s1 s2 : Machine} {fuel' uat' : ℕ}
    (hs : (tables a).Reachable s) (hread : atToUser fuel a uat (s, w) = (.ok (), (s1, w1)))
    (hwrite : atFromUserTable fuel' b uat' (s2, w1) = (.ok (), (s', w'))) :
    (∀ va req, s'.translate b va req = s.translate a va req) ∧
    (s'.obj b).tree.atUtrap = (s.obj a).tree.atUtrap ∧
    ∀ i < (s'.darray (atUaddrmap b)).daNent, ((s'.obj b).tree.uaddrmap i).flags ≠ 0 →
      ((s'.obj b).tree.uaddrmap i).kslot = i := by
  have htidy := tidy_of_reachable hs
  obtain ⟨-, hlist, htrap, hk⟩ := wp_ok (atToUser_ok (s, w)) hread
  obtain ⟨hle, htrap', hnew⟩ := wp_ok (atFromUserTable_ok (s2, w1)) hwrite
  dsimp only at hlist htrap hk hle htrap' hnew
  have hlen : (slotList w1.slots 0 w1.nent).length = w1.nent := by
    rw [slotList, length_map, length_range']
  have hsane : ∀ u ∈ slotList w1.slots 0 w1.nent, u.sanitize = u := by
    intro u hu
    rw [hlist] at hu
    obtain ⟨j, hj, rfl⟩ := mem_map.mp (mem_filter.mp hu).1
    exact (htidy j (by simpa using mem_range'_1.mp hj)).1
  refine ⟨fun va req => ?_, htrap'.trans htrap, fun i hi hflags => ?_⟩
  · rw [translate_eq_find, newSlots_unnumbered hsane (by rwa [hlen]) hnew, find_zeros, hlist,
      translate_eq_find, find?_map, find?_map]
    exact congrArg (fun o => (o.map UAddressMapping.unnumbered).map (·.view va))
      (find_used (slotList (s.obj a).tree.uaddrmap 0 _))
  · have hcount := used_length_le hk fun j hj => (htidy j hj).2
    rw [← hlist, hlen] at hcount
    rw [hnew i hi, newSlots, slotList_getElem?] at hflags ⊢
    by_cases hin : i < w1.nent
    · rw [if_pos hin]
      exact Nat.mod_eq_of_lt (lt_of_lt_of_le hin hcount)
    · rw [if_neg hin] at hflags
      exact absurd rfl hflags

/-- A slot with one that is not in use before it. -/
def secondSlot : UAddressMapping :=
  { type := addressMappingSegment, object := ⟨1, 4⟩, kslot := 1, flags := 6, va := 0x2000,
    numPages := 1 }

/-- The slot is set in a new tree, and the table of the tree is read and written back. -/
def readBack (s : Machine) : Option (Machine × (Machine × UserTable) × Machine × UserTable) := do
  let t ← (atSetUslot 4 secondSlot).next s
  let x ← (atToUser 1 4 0x1000).result (t, pageTable 2 0)
  let y ← (atFromUserTable 1 4 0x1000).result x.2
  pure (t, x.2, y.2)

theorem write_back_keeps_translation_second :
    ∃ s s' w', (tables 4).Reachable s ∧ s.translate 4 0x2000 6 = some (⟨1, 4⟩, 0, 6) ∧
      atFromUserTable 1 4 0x1000 (atToUser 1 4 0x1000 (s, pageTable 2 0)).2 = (.ok (), (s', w')) ∧
      s'.translate 4 0x2000 6 = some (⟨1, 4⟩, 0, 6) := by
  obtain ⟨s0, -, hinit, ⟨s, x, s', w'⟩, hr, htr⟩ := reachable_of_bootRun 40 1
    (mappedRun ++ [⟨0, .syscall (.atAlloc 1 0 0)⟩]) (P := fun s =>
      (s.darray (atUaddrmap 4)).daNent = 0 ∧
        ∃ r ∈ readBack s, r.1.translate 4 0x2000 6 = some (⟨1, 4⟩, 0, 6)) (by decide +kernel)
  simp only [readBack, Option.mem_def, Option.bind_eq_bind, Option.bind_eq_some_iff,
    Option.pure_def, Option.some.injEq, Prod.mk.injEq] at hr
  obtain ⟨t, hset, ⟨_, s1, w1⟩, hread, ⟨_, y⟩, hwrite, rfl, rfl, rfl⟩ := hr
  have hread := result_eq_some.mp hread
  have hwrite := result_eq_some.mp hwrite
  have hs : (tables 4).Reachable t :=
    .next (a := .setUslot secondSlot (by decide)) (.start hinit) trivial hset
  refine ⟨t, s', w', hs, htr, by rw [hread]; exact hwrite, ?_⟩
  rw [(write_back_keeps_translation hs hread hwrite).1 0x2000 6]
  exact htr

end Corey.Kern
