import Corey.Kern.NewTable
import Corey.Kern.Invalidation

/-!
What a page fault does to the page tables and what it leaves alone.

Up to the page itself a fault only looks things up and enters a mapping: no pagemap changes, save
that a root may get a link. The last step adds tables on the way to the address and writes one
entry, in the tables of the tree or of the interior tree that the way leads into.
-/

namespace Corey.Kern

open Function Corey.Comp Corey.Mem Machine PmTable

variable {s s' t : Machine} {a b p : Kobj} {va fuel : ℕ} {f : Kobject → Kobject} {α : Type}
  {m : KM α}

/-! ### What looking up leaves alone -/

/-- Of the trees only the cached object may change, and of the arrays none. -/
abbrev SameTables : Machine → Machine → Prop :=
  Same (fun o => (o.head, { o.tree with atObj := {} })) fun s => (s.darray, s.atRange)

lemma SameTables.of_decrefs {ko : Kobj} (h : Decrefs ko s s') : SameTables s s' := by
  have hmod : SameTables s (s.modObj ko fun o => { o with koRef := o.koRef - 1 }) :=
    .modObj rfl rfl
  cases h with
  | stops => exact .refl s
  | one _ => exact hmod
  | last _ _ cpu => exact ⟨hmod.obj, rfl⟩

/-- What the user has put into the trees stays. -/
abbrev SameUser : Machine → Machine → Prop :=
  Same (fun o => (o.tree.uaddrmap, o.tree.atInterior, o.tree.atUtrap))
    fun s p => s.darray (atUaddrmap p)

namespace SameUser

variable (h : SameUser s s') (p : Kobj)
include h

lemma uaddrmap : (s'.obj p).tree.uaddrmap = (s.obj p).tree.uaddrmap := congrArg (·.1) (h.obj p)

lemma atInterior : (s'.obj p).tree.atInterior = (s.obj p).tree.atInterior :=
  congrArg (·.2.1) (h.obj p)

lemma nents : s'.darray (atUaddrmap p) = s.darray (atUaddrmap p) := congrFun h.rest p

end SameUser

abbrev SameTrees : Machine → Machine → Prop :=
  Same (fun o => ((o.tree.uaddrmap, o.tree.atInterior, o.tree.atUtrap), o.tree.atPgmap))
    fun s => (fun p => s.darray (atUaddrmap p), s.atRange)

namespace SameTrees

lemma of_tables (h : SameTables s s') : SameTrees s s' :=
  h.map (fun x => ((x.2.uaddrmap, x.2.atInterior, x.2.atUtrap), x.2.atPgmap))
    fun x => (fun p => x.1 (atUaddrmap p), x.2)

lemma user (h : SameTrees s s') : SameUser s s' := h.map Prod.fst Prod.fst

lemma atPgmap (h : SameTrees s s') (p : Kobj) :
    (s'.obj p).tree.atPgmap = (s.obj p).tree.atPgmap := congrArg Prod.snd (h.obj p)

lemma atRange (h : SameTrees s s') : s'.atRange = s.atRange := congrArg Prod.snd h.rest

end SameTrees

/-! ### Looking objects up -/

lemma tables_of_looks (h : Steps Looks m) : Steps SameTables m :=
  h.mono fun _ _ h => h.map (fun o => (o.head, { o.tree with atObj := {} })) fun x => (x.1, x.2.1)

lemma kobjectIncref_tables (ko : Kobj) : Steps SameTables (kobjectIncref ko) :=
  .bind (deref_quiet ko) fun _ => .change fun _ => .modObj rfl rfl

lemma kobjectDecref_tables (ko : Kobj) : Steps SameTables (kobjectDecref ko) :=
  .of_rel fun s _ => .of_decrefs (kobjectDecref_decrefs ko s)

lemma kobjGet_tables (a : Kobj) (ref : SobjRef) (type : KobjType) :
    Steps SameTables (kobjGet a ref type) :=
  .bind theProcessor_quiet fun _ => .derefAs fun _ =>
    .derefAs fun _ => .ite (.pure _) <|
      .bind (tables_of_looks (processorCoObj_looks _ _ _)) fun _ =>
        .join (kobjectDecref_tables _) fun _ =>
        .seq (.change fun _ => .modObj rfl rfl) <| .seq (kobjectIncref_tables _) (.pure _)

/-! ### Entering a mapping, and the page -/

section

variable {ι : Type}

abbrev KeepsHeads {α : Type} (m : DaM ι α) : Prop := Steps (fun r r' => r'.1 = r.1) m

abbrev OnlyArray (t : ι) {α : Type} (m : DaM ι α) : Prop :=
  Steps (fun r r' => ∀ t' ≠ t, r'.1 t' = r.1 t') m

lemma KeepsHeads.only {m : DaM ι α} (h : KeepsHeads m) (t : ι) : OnlyArray t m :=
  h.mono fun _ _ h _ _ => congrFun h _

lemma shared_heads (m : Forest.ForestM ι α) : KeepsHeads (shared m : DaM ι α) :=
  .of_rel fun _ _ => rfl

variable [DecidableEq ι]

lemma dropPage_heads (t : ι) (i : ℕ) : KeepsHeads (dropPage t i) :=
  .bind (.attempt (shared_heads _)) fun
    | .ok _ => .pure _
    | .error _ => .halt _

lemma growPages_heads (t : ι) (k k' : ℕ) (clear : Bool) : KeepsHeads (growPages t k k' clear) :=
  .bind (.of_quiet fun _ => rfl) fun _ => .ite (.loop (fun _ => .bind
    (.onErr (shared_heads _) (.loop (dropPage_heads t) _ _)) fun _ =>
      .ite (shared_heads _) (.pure _)) _ _) (.pure _)

lemma darraySetNent_only (t : ι) (n : ℕ) (clear : Bool) : OnlyArray t (darraySetNent t n clear) :=
  .bind (.of_quiet fun _ => rfl) fun _ => .seq (KeepsHeads.only (.loop (dropPage_heads t) _ _) t) <|
    .seq ((growPages_heads t _ _ clear).only t) <| .change fun _ _ ht => update_of_ne ht _ _

lemma darrayGrowNent_only (t : ι) (n : ℕ) : OnlyArray t (darrayGrowNent t n) :=
  .bind (.of_quiet fun _ => rfl) fun _ => .ite (darraySetNent_only t n true) (.pure _)

lemma darrayGet_only (t : ι) (i : ℕ) (mode : PageSharingMode) : OnlyArray t (darrayGet t i mode) :=
  .bind (.of_quiet fun _ => rfl) fun _ => .ite (.raise _) <|
    .bind ((shared_heads _).only t) fun _ => .pure _

end

lemma onArrays_trees {x : TreeId} {m : DaM TreeId α} (hm : OnlyArray x m)
    (hx : x.2 ≠ .atUaddrmap) : Steps SameTrees (onArrays m) :=
  hm.zoom (fun _ => rfl) fun _ _ _ h => ⟨fun _ => rfl, Prod.ext
    (funext fun _ => h _ fun heq => hx (heq ▸ rfl)) rfl⟩

lemma kobjGet_trees (a : Kobj) (ref : SobjRef) (type : KobjType) :
    Steps SameTrees (kobjGet a ref type) := (kobjGet_tables a ref type).mono fun _ _ => .of_tables

lemma atGetAddrmap_trees (a : Kobj) (i : ℕ) : Steps SameTrees (atGetAddrmap a i) :=
  .derefAs fun _ => .bind .state fun _ =>
    .join (onArrays_trees (darrayGrowNent_only _ _) nofun) fun _ =>
      .derefAs fun _ => .pure _

lemma amlInsert_trees (ko : Kobj) (r : AmRef) (am : AddressMapping) :
    Steps SameTrees (amlInsert ko r am) :=
  .bind (amlGetList_quiet _) fun _ => .derefAs fun _ =>
      .seq (.change fun _ => .modObj rfl rfl) <| .change fun s => by
        refine .modObj ?_ rfl
        split <;> rfl

lemma linkMapping_trees (a : Kobj) (u : UAddressMapping) (ko : Kobj) :
    Steps SameTrees (linkMapping a u ko) :=
  .bind (atGetAddrmap_trees _ _) fun _ => .seq (.require _) <| .ite
    (.bind theProcessor_quiet fun _ =>
      .seq (amlInsert_trees _ _ _) (.pure _)) (.pure _)

lemma fillSegment_trees (a : Kobj) (u : UAddressMapping) (va : ℕ) :
    Steps SameTrees (fillSegment a u va) :=
  .bind (kobjGet_trees _ _ _) fun _ => .derefAs fun _ =>
    .bind (linkMapping_trees _ _ _) fun _ => .bind (.seq (.require _) (.pure _)) fun _ => .pure _

lemma segmentFaultPage_trees (sg : Kobj) (pnum : ℕ) (mode : PageSharingMode) :
    Steps SameTrees (segmentFaultPage sg pnum mode) :=
  .bind (.derefAs fun _ =>
    .bind (onArrays_trees (darrayGet_only _ _ _) nofun) fun _ => .pure _) fun _ =>
      .bind (.need _ _) fun _ =>
        .seq ((tables_of_looks (onForest_looks _)).mono fun _ _ => .of_tables) (.pure _)

/-! ### Pagemaps that grow -/

namespace Pagemap

/-- The tables on the way to an address are there. -/
def Ready (pm : Pagemap) (va : ℕ) : Prop :=
  if pm.int then pm.inner.Ready va else pm.root.Ready va

/-- Only entries for which `P` holds have been written. -/
structure Grows (P : Pte → Prop) (pm pm' : Pagemap) : Prop where
  int : pm'.int = pm.int
  linkAt : ∀ va, pm'.linkAt va = pm.linkAt va
  lookup : ∀ va, pm'.lookup va = pm.lookup va ∨ ∃ e, P e ∧ pm'.lookup va = some e

variable {P : Pte → Prop} {pm pm' pm'' : Pagemap} {e : Pte}

lemma Grows.refl (pm : Pagemap) : Grows P pm pm := ⟨rfl, fun _ => rfl, fun _ => .inl rfl⟩

lemma Grows.trans (h : Grows P pm pm') (h' : Grows P pm' pm'') : Grows P pm pm'' where
  int := h'.int.trans h.int
  linkAt va := (h'.linkAt va).trans (h.linkAt va)
  lookup va := by
    rcases h'.lookup va with h2 | h2
    · rw [h2]
      exact h.lookup va
    · exact .inr h2

lemma linkAt_int (h : pm.int = true) (va : ℕ) : pm.linkAt va = none := by simp [linkAt, h]

lemma linkAt_root (h : pm.int = false) (va : ℕ) : pm.linkAt va = pm.root.linkOn va := by
  rw [linkOn_root]
  simp [linkAt, h]

lemma lookup_int (h : pm.int = true) (va : ℕ) : pm.lookup va = pm.inner.lookup va := by
  simp [lookup, h]

lemma lookup_root (h : pm.int = false) (va : ℕ) : pm.lookup va = pm.root.lookup va := by
  simp [lookup, h]

lemma Grows.of_inner {t : PmTable 1} (h : pm.int = true) (ht : Paved va pm.inner t) :
    Grows P pm { pm with inner := t } where
  int := rfl
  linkAt va := by
    rw [linkAt_int h va]
    exact linkAt_int h va
  lookup va := .inl <| by
    rw [lookup_int h va, ← ht.lookup va]
    exact @lookup_int { pm with inner := t } h va

lemma Grows.of_root {t : PmTable 3} (h : pm.int = false) (ht : Paved va pm.root t) :
    Grows P pm { pm with root := t } where
  int := rfl
  linkAt va := by
    rw [linkAt_root h va, ← ht.linkOn va]
    exact @linkAt_root { pm with root := t } h va
  lookup va := .inl <| by
    rw [lookup_root h va, ← ht.lookup va]
    exact @lookup_root { pm with root := t } h va

lemma lookup_setLeaf_self (h : pm.Ready va) : (pm.setLeaf va e).lookup va = some e := by
  cases hint : pm.int with
  | true =>
    simp only [Ready, hint, if_true] at h
    simp [setLeaf, lookup, hint, lookup_setLeaf _ h]
  | false =>
    simp only [Ready, hint, Bool.false_eq_true, if_false] at h
    simp [setLeaf, lookup, hint, lookup_setLeaf _ h]

lemma Grows.setLeaf (h : pm.Ready va) : Grows (· = e) pm (pm.setLeaf va e) := by
  have hor : ∀ (c : Prop) [Decidable c] (o : Option Pte),
      (if c then some e else o) = o ∨ ∃ e', e' = e ∧ (if c then some e else o) = some e' := by
    intro c _ o
    by_cases hc : c
    · exact .inr ⟨e, rfl, if_pos hc⟩
    · exact .inl (if_neg hc)
  have hint' : (pm.setLeaf va e).int = pm.int := by
    rw [Pagemap.setLeaf]
    split_ifs <;> rfl
  refine ⟨hint', fun va' => ?_, fun va' => ?_⟩ <;> cases hint : pm.int
  · rw [Ready, hint, if_neg (by simp)] at h
    rw [linkAt_root hint, linkAt_root (hint'.trans hint), Pagemap.setLeaf, hint, if_neg (by simp)]
    exact linkOn_setLeaf _ h
  · rw [linkAt_int hint, linkAt_int (hint'.trans hint)]
  · rw [Ready, hint, if_neg (by simp)] at h
    rw [lookup_root hint, lookup_root (hint'.trans hint), Pagemap.setLeaf, hint, if_neg (by simp),
      lookup_setLeaf _ h]
    exact hor _ _
  · rw [Ready, hint, if_pos rfl] at h
    rw [lookup_int hint, lookup_int (hint'.trans hint), Pagemap.setLeaf, hint, if_pos rfl,
      lookup_setLeaf _ h]
    exact hor _ _

end Pagemap

/-- Slots stay, and in pagemaps only entries for which `P` holds have been written. -/
structure Grows (P : Pte → Prop) (s s' : Machine) : Prop where
  user : SameUser s s'
  atPgmap : ∀ p, Option.Rel (Pagemap.Grows P) (s.obj p).tree.atPgmap (s'.obj p).tree.atPgmap

namespace Grows

variable {P : Pte → Prop}

lemma pagemap_refl (x : Option Pagemap) : Option.Rel (Pagemap.Grows P) x x := by
  cases x with
  | none => exact .none
  | some pm => exact .some (.refl pm)

lemma trans (h : Grows P s t) (h' : Grows P t s') : Grows P s s' where
  user := h.user.trans h'.user
  atPgmap p := by
    have h1 := h.atPgmap p
    have h2 := h'.atPgmap p
    revert h1 h2
    rcases (s.obj p).tree.atPgmap with _ | x <;> rcases (t.obj p).tree.atPgmap with _ | y <;>
      rcases (s'.obj p).tree.atPgmap with _ | z <;> rintro ⟨h1⟩ ⟨h2⟩
    · exact .none
    · exact .some (‹x.Grows P y›.trans ‹y.Grows P z›)

lemma of_trees (h : SameTrees s s') : Grows P s s' where
  user := h.user
  atPgmap p := h.atPgmap p ▸ pagemap_refl _

lemma one {pm pm' : Pagemap} (hpm : (s.obj a).tree.atPgmap = some pm) (h : pm.Grows P pm')
    {o : Kobject} (ho : o = { s.obj a with tree := { (s.obj a).tree with atPgmap := some pm' } })
    (hobj : s'.obj = update s.obj a o) (hd : s'.darray = s.darray) : Grows P s s' := by
  have hmod : SameUser s (s.modObj a fun _ => o) := .modObj (ho ▸ rfl) rfl
  refine ⟨⟨fun p => ?_, by rw [hd]⟩, fun p => ?_⟩ <;> rw [hobj]
  · exact hmod.obj p
  · refine forall_modObj (P := fun q x => Option.Rel _ (s.obj q).tree.atPgmap x.tree.atPgmap)
      (f := fun _ => o) ?_ (fun _ => pagemap_refl _) p
    rw [ho, hpm]
    exact .some h

end Grows

/-! ### The entry for an address -/

/-- The entry `as_arch_putpage` writes, in the tree or in the one linked to. -/
def Machine.entAt (s : Machine) (a : Kobj) (va : ℕ) : Option Pte :=
  (s.obj a).tree.atPgmap.bind fun pm =>
    match pm.linkAt va with
    | none => pm.lookup va
    | some b => (s.obj b).tree.atPgmap.bind fun pb => if pb.int then pb.lookup va else none

lemma entAt_eq {pm : Pagemap} (hpm : (s.obj a).tree.atPgmap = some pm)
    (hlink : pm.linkAt va = none) : s.entAt a va = pm.lookup va := by
  simp [Machine.entAt, hpm, hlink]

lemma entAt_linked {pm pb : Pagemap} (hpm : (s.obj a).tree.atPgmap = some pm)
    (hlink : pm.linkAt va = some b) (hpb : (s.obj b).tree.atPgmap = some pb)
    (hint : pb.int = true) : s.entAt a va = pb.lookup va := by
  simp [Machine.entAt, hpm, hlink, hpb, hint]

/-- The entry a walk from the pagemap finds that takes it for a root, as the processor's own walk
does. From the tables of an interior pagemap it leads into what is no table. -/
def Machine.pteAt (s : Machine) (a : Kobj) (va : ℕ) : Option Pte :=
  (s.obj a).tree.atPgmap.bind fun pm => if pm.int then none else s.entAt a va

def Machine.IsRoot (s : Machine) (a : Kobj) : Prop :=
  ∃ pm, (s.obj a).tree.atPgmap = some pm ∧ pm.int = false

lemma Machine.IsRoot.pteAt (h : s.IsRoot a) (va : ℕ) : s.pteAt a va = s.entAt a va := by
  obtain ⟨pm, hpm, hint⟩ := h
  simp [Machine.pteAt, hpm, hint]

lemma isRoot_of_pteAt {e : Pte} (h : s.pteAt a va = some e) : s.IsRoot a := by
  obtain ⟨pm, hpm, h⟩ := Option.bind_eq_some_iff.mp h
  refine ⟨pm, hpm, ?_⟩
  by_contra hint
  rw [if_pos (by simpa using hint)] at h
  exact nomatch h

namespace Grows

variable {P : Pte → Prop} {pm : Pagemap}

lemma some_of (h : Grows P s s') (hpm : (s.obj a).tree.atPgmap = some pm) :
    ∃ pm', (s'.obj a).tree.atPgmap = some pm' ∧ pm.Grows P pm' := by
  have hrel := h.atPgmap a
  rw [hpm] at hrel
  cases hm : (s'.obj a).tree.atPgmap with
  | none =>
    rw [hm] at hrel
    cases hrel
  | some pm' =>
    rw [hm] at hrel
    cases hrel with
    | some hg => exact ⟨pm', rfl, hg⟩

lemma lookup_some {pm' : Pagemap} {e : Pte} (h : pm.Grows P pm') (he : P e)
    (hl : pm.lookup va = some e) : ∃ e', P e' ∧ pm'.lookup va = some e' := by
  rcases h.lookup va with h' | h'
  · exact ⟨e, he, h'.trans hl⟩
  · exact h'

lemma entAt (h : Grows P s s') {e : Pte} (he : P e) (hent : s.entAt a va = some e) :
    ∃ e', P e' ∧ s'.entAt a va = some e' := by
  obtain ⟨pm, hpm, hent⟩ := Option.bind_eq_some_iff.mp hent
  obtain ⟨pm', hpm', hg⟩ := h.some_of hpm
  cases hlink : pm.linkAt va with
  | none =>
    rw [hlink] at hent
    obtain ⟨e', he', hl'⟩ := lookup_some hg he hent
    exact ⟨e', he', (entAt_eq hpm' ((hg.linkAt va).trans hlink)).trans hl'⟩
  | some b =>
    rw [hlink] at hent
    obtain ⟨pb, hpb, hent⟩ := Option.bind_eq_some_iff.mp hent
    obtain ⟨pb', hpb', hgb⟩ := h.some_of hpb
    cases hint : pb.int with
    | false => simp [hint] at hent
    | true =>
      rw [hint, if_pos rfl] at hent
      obtain ⟨e', he', hl'⟩ := lookup_some hgb he hent
      exact ⟨e', he', (entAt_linked hpm' ((hg.linkAt va).trans hlink) hpb'
        (hgb.int.trans hint)).trans hl'⟩

lemma isRoot (h : Grows P s s') (ha : s.IsRoot a) : s'.IsRoot a := by
  obtain ⟨pm, hpm, hint⟩ := ha
  obtain ⟨pm', hpm', hg⟩ := h.some_of hpm
  exact ⟨pm', hpm', hg.int.trans hint⟩

lemma isRoot_iff (h : Grows P s s') : s'.IsRoot a ↔ s.IsRoot a := by
  refine ⟨fun ⟨pm', hpm', hint⟩ => ?_, h.isRoot⟩
  cases hpm : (s.obj a).tree.atPgmap with
  | none =>
    have hrel := h.atPgmap a
    rw [hpm, hpm'] at hrel
    cases hrel
  | some pm =>
    obtain ⟨_, hsame, hg⟩ := h.some_of hpm
    cases hpm'.symm.trans hsame
    exact ⟨pm, hpm, hg.int.symm.trans hint⟩

lemma pteAt (h : Grows P s s') {e : Pte} (he : P e) (hent : s.pteAt a va = some e) :
    ∃ e', P e' ∧ s'.pteAt a va = some e' := by
  have ha := isRoot_of_pteAt hent
  rw [ha.pteAt] at hent
  rw [(h.isRoot ha).pteAt]
  exact h.entAt he hent

end Grows

lemma pgdirWalkIn_grows (P : Pte → Prop) (pid : ℕ) (s : Machine) :
    wp (pgdirWalkIn a va pid) (fun r s' => va < ulim ∧ Grows P s s' ∧ s'.atRange = s.atRange ∧
      ∃ pm, (s'.obj a).tree.atPgmap = some pm ∧ r = pm.linkAt va ∧ (r = none → pm.Ready va))
      .any s := by
  simp only [pgdirWalkIn, wp_rules, wp_derefAs, onPagemap, wp_zoom, wp_focus, implies_true,
    and_true]
  intro _ _ pm hpm hva
  simp only [hpm, theMap, Option.getD_some, Option.map_some]
  refine ⟨fun hint => ?_, fun hint => ?_⟩
  · refine wp_weaken (pgdirWalk_paves pid 1 (pm.inner, s.forest)) fun r x ht => ?_
    obtain ⟨hr, hx, hready⟩ := ht
    refine ⟨hva, .one hpm (.of_inner hint hx) rfl rfl rfl, rfl, _, by simp; rfl, ?_, fun hno => ?_⟩
    · rw [hr, linkOn_low]
      exact (Pagemap.linkAt_int hint va).symm
    · simp only [Pagemap.Ready, innerOf, hint, if_true]
      exact hready hno
  · have hint : pm.int = false := by simpa using hint
    refine wp_weaken (pgdirWalk_paves pid 3 (pm.root, s.forest)) fun r x ht => ?_
    obtain ⟨hr, hx, hready⟩ := ht
    refine ⟨hva, .one hpm (.of_root hint hx) rfl rfl rfl, rfl, _, by simp; rfl, ?_, fun hno => ?_⟩
    · rw [hr, ← hx.linkOn va]
      exact (@Pagemap.linkAt_root { pm with root := x.1 } hint va).symm
    · simp only [Pagemap.Ready, rootOf, hint, Bool.false_eq_true, if_false]
      exact hready hno

lemma setLeaf_grows {pm : Pagemap} {e : Pte} (hpm : (s.obj a).tree.atPgmap = some pm)
    (hready : pm.Ready va) : Grows (· = e) s (s.modObj a fun o =>
      { o with tree := { o.tree with atPgmap := o.tree.atPgmap.map (·.setLeaf va e) } }) :=
  .one hpm (.setLeaf hready) (by simp only [hpm, Option.map_some]) rfl rfl

lemma asArchPutpage_grows (pid : ℕ) (e : Pte) (s : Machine) :
    wp (asArchPutpage a va pid e) (fun _ s' => va < ulim ∧ Grows (· = e) s s' ∧
      s'.atRange = s.atRange ∧ s'.entAt a va = some e) .any s := by
  rw [asArchPutpage, wp_bind]
  refine wp_post (pgdirWalkIn_grows (· = e) pid s) fun r t ht => ?_
  obtain ⟨hva, hgt, hrange, pm, hpm, hr, hready⟩ := ht
  cases r with
  | none =>
    have hg := setLeaf_grows (e := e) hpm (hready rfl)
    obtain ⟨pm', hpm', hgm⟩ := hg.some_of hpm
    have hset : pm' = pm.setLeaf va e := by
      simpa [hpm, eq_comm] using hpm'
    refine ⟨hva, hgt.trans hg, hrange, ?_⟩
    rw [entAt_eq hpm' ((hgm.linkAt va).trans hr.symm), hset]
    exact Pagemap.lookup_setLeaf_self (hready rfl)
  | some b =>
    refine wp_bind.mpr ?_
    simp only [pgdirWalkLinked, wp_rules, wp_derefAs, wp_halt, implies_true, and_true, true_and]
    intro _ _ pb hpb hint
    refine wp_post (pgdirWalkIn_grows (· = e) pid t) fun r' u hu => ?_
    obtain ⟨-, hgu, hrange', pb', hpb', hr', hready'⟩ := hu
    obtain ⟨_, hsame, hgb⟩ := hgu.some_of hpb
    cases hpb'.symm.trans hsame
    have hint' : pb'.int = true := by simpa [hgb.int] using hint
    have hnone : r' = none := hr'.trans (Pagemap.linkAt_int hint' va)
    have hg := setLeaf_grows (e := e) hpb' (hready' hnone)
    obtain ⟨pm1, hpm1, hgm1⟩ := hgu.some_of hpm
    obtain ⟨pm2, hpm2, hgm2⟩ := hg.some_of hpm1
    obtain ⟨pb2, hpb2, hgb2⟩ := hg.some_of hpb'
    have hset : pb2 = pb'.setLeaf va e := by
      simpa [hpb', eq_comm] using hpb2
    refine ⟨hva, hgt.trans (hgu.trans hg), hrange'.trans hrange, ?_⟩
    rw [entAt_linked hpm2 (((hgm2.linkAt va).trans (hgm1.linkAt va)).trans hr.symm) hpb2
      (hgb2.int.trans hint'), hset]
    exact Pagemap.lookup_setLeaf_self (hready' hnone)

/-! ### The slot a fault uses -/

/-- The slot `at_pmap_fill` uses for an address, as a value. -/
def Machine.slotFor (s : Machine) (a : Kobj) (va reqflags : ℕ) : Option ℕ :=
  match (s.atRange a).hit (s.obj a).tree.uaddrmap va reqflags with
  | some i => some i
  | none => scanSlots (s.obj a).tree.uaddrmap va reqflags (s.darray (atUaddrmap a)).daNent 0

lemma hit_eq_some {r : RangeCache} {slots : ℕ → UAddressMapping} {req i : ℕ}
    (h : r.hit slots va req = some i) :
    r.uam = some i ∧ hasFlags (slots i).flags req = true := by
  rw [RangeCache.hit] at h
  cases hr : r.uam with
  | none => rw [hr] at h; exact nomatch h
  | some j =>
    rw [hr] at h
    dsimp only at h
    by_cases hc : (slots j).flags ≠ 0 ∧ r.vaStart ≤ va ∧ va < r.vaEnd ∧ hasFlags (slots j).flags req
    · rw [if_pos hc] at h
      cases h
      exact ⟨rfl, hc.2.2.2⟩
    · rw [if_neg hc] at h
      exact nomatch h

lemma scanSlots_eq_some {slots : ℕ → UAddressMapping} {req i : ℕ} : ∀ {k j : ℕ},
    scanSlots slots va req k j = some i →
    i < j + k ∧ (slots i).serves va req = true
  | 0, _, h => nomatch h
  | k + 1, j, h => by
    rw [scanSlots] at h
    by_cases hj : (slots j).serves va req = true
    · rw [if_pos hj] at h
      cases h
      exact ⟨by omega, hj⟩
    · rw [if_neg hj] at h
      have ih := scanSlots_eq_some h
      exact ⟨by omega, ih.2⟩

lemma slotFor_flags {req i : ℕ} (h : s.slotFor a va req = some i) :
    hasFlags ((s.obj a).tree.uaddrmap i).flags req = true := by
  rw [slotFor] at h
  cases hh : (s.atRange a).hit (s.obj a).tree.uaddrmap va req with
  | some j =>
    rw [hh] at h
    cases h
    exact (hit_eq_some hh).2
  | none =>
    rw [hh] at h
    have hserves := (scanSlots_eq_some h).2
    simp only [UAddressMapping.serves, Bool.and_eq_true] at hserves
    exact hserves.1.1.2

/-- The cached range of `a` becomes that of slot `i`. -/
def Machine.cacheSlot (s : Machine) (a : Kobj) (i : ℕ) : Machine :=
  { s with atRange := update s.atRange a (((s.obj a).tree.uaddrmap i).range i) }

/-- What the choice of slot `i` does to the cache. -/
def Machine.afterSlot (s : Machine) (a : Kobj) (va reqflags i : ℕ) : Machine :=
  match (s.atRange a).hit (s.obj a).tree.uaddrmap va reqflags with
  | some _ => s
  | none => s.cacheSlot a i

lemma afterSlot_cases (s : Machine) (a : Kobj) (va req i : ℕ) :
    s.afterSlot a va req i = s ∨ s.afterSlot a va req i = s.cacheSlot a i := by
  rw [afterSlot]
  cases (s.atRange a).hit (s.obj a).tree.uaddrmap va req with
  | some _ => exact .inl rfl
  | none => exact .inr rfl

@[simp] lemma afterSlot_obj (s : Machine) (a : Kobj) (va req i : ℕ) :
    (s.afterSlot a va req i).obj = s.obj := by
  rcases afterSlot_cases s a va req i with h | h
  · rw [h]
  · rw [h]
    rfl

lemma chooseSlot_ok (req : ℕ) (s : Machine) :
    wp (chooseSlot a va req) (fun i s' => s.slotFor a va req = some i ∧
      s' = s.afterSlot a va req i) .any s := by
  simp only [chooseSlot, wp_rules, wp_derefAs, implies_true, and_true]
  intro _ _
  cases hh : (s.atRange a).hit (s.obj a).tree.uaddrmap va req with
  | some i => exact ⟨by simp only [slotFor, hh], by simp only [afterSlot, hh]⟩
  | none =>
    simp only [scanSlot, atNents, getObj, wp_rules, wp_derefAs, implies_true, and_true]
    intro _ _
    cases hs : scanSlots (s.obj a).tree.uaddrmap va req (s.darray (atUaddrmap a)).daNent 0 with
    | none => trivial
    | some i =>
      refine ⟨by simp only [slotFor, hh, hs], ?_⟩
      simp only [afterSlot, hh]
      rfl

/-! ### Faults on segments -/

/-- The permissions of an entry include those that are asked for. -/
def Pte.Allows (req : ℕ) (e : Pte) : Prop :=
  (hasFlags req segmapWrite = true → e.write = true) ∧
    (hasFlags req segmapExec = true → e.exec = true)

lemma hasFlags_trans {f g h : ℕ} (hfg : hasFlags f g = true) (hgh : hasFlags g h = true) :
    hasFlags f h = true := by
  simp only [hasFlags, decide_eq_true_eq] at *
  rw [← hgh, ← Nat.and_assoc, hfg]

lemma pteOf_allows {flags req : ℕ} (h : hasFlags flags req = true) (p : Ppn) (src : PteSrc) :
    (pteOf p flags src).Allows req :=
  ⟨fun hw => hasFlags_trans h hw, fun hx => hasFlags_trans h hx⟩

lemma Grows.mono {P Q : Pte → Prop} (h : Grows P s s') (hPQ : ∀ e, P e → Q e) : Grows Q s s' :=
  { h with
    atPgmap := fun p => by
      have hrel := h.atPgmap p
      revert hrel
      rcases (s.obj p).tree.atPgmap with _ | pm <;> rcases (s'.obj p).tree.atPgmap with _ | pm' <;>
        rintro ⟨hg⟩
      · exact .none
      · exact .some ⟨hg.int, hg.linkAt, fun va => (hg.lookup va).imp_right
          fun ⟨e, he, hl⟩ => ⟨e, hPQ e he, hl⟩⟩ }

lemma trees_ok (hm : Steps SameTrees m) (s : Machine) : wp m (fun _ t => SameTrees s t) .any s :=
  Same.ok (.refl s) hm

lemma fillSegment_ok (u : UAddressMapping) (s : Machine) :
    wp (fillSegment a u va) (fun x s' => SameTrees s s' ∧ x.tree = a ∧ x.va = va ∧
      x.flags = u.flags) .any s := by
  have hval : wp (fillSegment a u va) (fun x _ => x.tree = a ∧ x.va = va ∧ x.flags = u.flags)
      .any s := by
    rw [fillSegment, wp_bind]
    refine wp_any_of fun sg t => ?_
    simp only [wp_bind, wp_derefAs, implies_true, and_true]
    intro _ _
    refine wp_any_of fun _ t => ?_
    refine wp_any_of fun _ t => ?_
    exact ⟨rfl, rfl, rfl⟩
  exact wp_weaken (wp_and (trees_ok (fillSegment_trees a u va) s) hval) fun _ _ => id

lemma fillPage_grows {req : ℕ} (x : Target) (hx : hasFlags x.flags req = true) (s : Machine) :
    wp (fillPage x) (fun _ s' => x.va < ulim ∧ Grows (Pte.Allows req) s s' ∧
      s'.atRange = s.atRange ∧ ∃ e, e.Allows req ∧ s'.entAt x.tree x.va = some e)
      .any s := by
  rw [fillPage, wp_bind]
  refine wp_post (trees_ok (segmentFaultPage_trees _ _ _) s) fun p t ht => ?_
  simp only [wp_bind, wp_derefAs, implies_true, and_true]
  intro _ _
  refine wp_post (asArchPutpage_grows _ _ t) fun _ s' ht' => ?_
  obtain ⟨hva, hg, hr, he⟩ := ht'
  have hallows := pteOf_allows hx p (.page x.sg x.pnum)
  exact ⟨hva, (Grows.of_trees ht).trans (hg.mono fun e he => he ▸ hallows),
    hr.trans ht.atRange, _, hallows, he⟩

/-- Neither a slot nor the cache of a tree leads to another tree. -/
def SegmentsOnly (s : Machine) (a : Kobj) : Prop :=
  ∀ i, i < (s.darray (atUaddrmap a)).daNent ∨ (s.atRange a).uam = some i →
    ((s.obj a).tree.uaddrmap i).type ≠ addressMappingInterior

lemma slotFor_known {req i : ℕ} (hi : s.slotFor a va req = some i) :
    i < (s.darray (atUaddrmap a)).daNent ∨ (s.atRange a).uam = some i := by
  rw [slotFor] at hi
  cases hh : (s.atRange a).hit (s.obj a).tree.uaddrmap va req with
  | some j =>
    rw [hh] at hi
    cases hi
    exact .inr (hit_eq_some hh).1
  | none =>
    rw [hh] at hi
    exact .inl (by simpa using (scanSlots_eq_some hi).1)

namespace SegmentsOnly

variable {req i : ℕ}

lemma slotFor (h : SegmentsOnly s a) (hi : s.slotFor a va req = some i) :
    ((s.obj a).tree.uaddrmap i).type ≠ addressMappingInterior := h i (slotFor_known hi)

lemma cacheSlot (h : SegmentsOnly s a) (hi : s.slotFor a va req = some i) :
    SegmentsOnly (s.cacheSlot a i) a := by
  rintro j (hj | hj)
  · exact h j (.inl hj)
  · have hji : i = j := by simpa [Machine.cacheSlot, UAddressMapping.range] using hj
    exact hji ▸ h.slotFor hi

end SegmentsOnly

lemma afterSlot_grows (P : Pte → Prop) (s : Machine) (a : Kobj) (va req i : ℕ) :
    Grows P s (s.afterSlot a va req i) := by
  rcases afterSlot_cases s a va req i with h | h <;> rw [h]
  · exact .of_trees (.refl s)
  · exact ⟨.of_objects rfl rfl, fun _ => Grows.pagemap_refl _⟩

lemma atPmapFill_segment {req : ℕ} (h : ∀ i, s.slotFor a va req = some i →
      ((s.obj a).tree.uaddrmap i).type ≠ addressMappingInterior) :
    wp (atPmapFill fuel a va req) (fun _ s' => ∃ i, s.slotFor a va req = some i ∧
      s'.atRange = (s.afterSlot a va req i).atRange ∧ Grows (Pte.Allows req) s s' ∧
      rounddown va pgsize < ulim ∧
      ∃ e, e.Allows req ∧ s'.entAt a (rounddown va pgsize) = some e) .any s := by
  rw [atPmapFill, wp_bind]
  cases fuel with
  | zero => trivial
  | succ fuel =>
    rw [findTarget, wp_bind]
    refine wp_post (chooseSlot_ok req s) fun i t ht => ?_
    obtain ⟨hi, ht⟩ := ht
    have hgt : Grows (Pte.Allows req) s t := ht ▸ afterSlot_grows _ s a va req i
    simp only [getObj, wp_bind, wp_state, wp_pure, hgt.user.uaddrmap]
    rw [if_neg (h i hi)]
    refine wp_post (fillSegment_ok _ t) fun x u ht => ?_
    obtain ⟨hu, hxt, hxva, hxf⟩ := ht
    have hflags : hasFlags x.flags req = true := by
      rw [hxf]
      exact slotFor_flags hi
    refine wp_post (fillPage_grows x hflags u) fun _ v ht => ?_
    obtain ⟨hva, hgv, hrv, e, he, hent⟩ := ht
    rw [hxva] at hva
    rw [hxt, hxva] at hent
    refine ⟨i, hi, ?_, hgt.trans ((Grows.of_trees hu).trans hgv), hva, e, he, hent⟩
    rw [hrv, hu.atRange, ht]

lemma atPagefault_ok {req : ℕ} {Q : Unit → Machine → Prop}
    (h : wp (atPmapFill fuel a va req) Q .any s) : wp (atPagefault fuel a va req) Q .any s := by
  rw [atPagefault, wp_onErr]
  exact wp_mono h (fun _ _ => id) (fun _ _ _ =>
    wp_any_of fun _ _ => trivial)

lemma SegmentsOnly.afterSlot {req i : ℕ} (h : SegmentsOnly s a)
    (hi : s.slotFor a va req = some i) : SegmentsOnly (s.afterSlot a va req i) a := by
  rcases afterSlot_cases s a va req i with h' | h' <;> rw [h']
  · exact h
  · exact h.cacheSlot hi

lemma atPagefault_segments {req : ℕ} (h : SegmentsOnly s a) :
    wp (atPagefault fuel a va req) (fun _ s' => SegmentsOnly s' a ∧ Grows (Pte.Allows req) s s' ∧
      ∃ e, e.Allows req ∧ s'.entAt a (rounddown va pgsize) = some e) .any s := by
  refine atPagefault_ok (wp_post (atPmapFill_segment fun i => h.slotFor) fun _ s' hs' => ?_)
  obtain ⟨i, hi, hr, hg, -, e, he, hent⟩ := hs'
  refine ⟨fun j hj => ?_, hg, e, he, hent⟩
  have hafter := h.afterSlot hi j
  rw [hg.user.uaddrmap]
  simp only [afterSlot_obj, ← hr, (afterSlot_grows (fun _ => True) s a va req i).user.nents]
    at hafter
  exact hafter (by rwa [hg.user.nents] at hj)

end Corey.Kern
