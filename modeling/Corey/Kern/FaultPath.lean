import Corey.Kern.Fill

/-!
Page faults through interior slots (`at_pmap_fill` in `kern/at.c`).

An interior slot leads to another address tree, in which the fault goes on. What a slot refers to,
and where the fault goes on, is said here as a function of the state before the fault.
-/

namespace Corey.Kern

open Function Corey.Comp Corey.Mem Machine

variable {s s' t v : Machine} {a b c : Kobj} {va req fuel i : ℕ} {u : UAddressMapping}
  {pm : Pagemap}

/-! ### What a slot refers to -/

/-- The share with an id in the share map of a processor. -/
def Machine.shareOf (s : Machine) (ps : Kobj) (id : ℕ) : Option Kobj :=
  ((hashGet id).result (s.obj ps).ps.psSharemap.map.table).map Prod.fst

/-- The object with an id in a share. -/
def Machine.objOf (s : Machine) (sh : Kobj) (id : ℕ) : Option Kobj :=
  ((hashGet id).result (s.obj sh).sh.shKobjectMap.table).map fun r => ((s.obj sh).sh.info r.1).siKo

/-- What `kobj_get` finds: the object in the cache of the tree, or that in the share. -/
def Machine.refers (s : Machine) (a : Kobj) (ref : SobjRef) : Option Kobj :=
  (s.processors s.mem.cpu).bind fun ps =>
    let c := (s.obj a).tree.atObj
    if (s.obj ps).koId = c.psId ∧ c.ref.object ≠ 0 ∧ c.ref.object = ref.object ∧
        c.ref.share = ref.share then
      some c.ko
    else
      (s.shareOf ps ref.share).bind fun sh =>
        if ref.share = ref.object then some sh else s.objOf sh ref.object

lemma wp_hashGet {V : Type} {t : Hashtable V} {key : ℕ} :
    wp (hashGet key) (fun v t' => t' = t ∧ ((hashGet key).result t).map Prod.fst = some v)
      .any t := by
  simp only [wp]
  rcases hg : hashGet key t with ⟨v | _ | _, t'⟩
  · exact ⟨(hashGet_entry hg).1, by rw [result_eq_some.mpr hg]; rfl⟩
  · trivial
  · trivial

lemma sharemapGet_finds (ps : Kobj) (id : ℕ) (s : Machine) :
    wp (sharemapGet ps id) (fun sh t => s.shareOf ps id = some sh ∧
      ∀ p, (t.obj p).sh = (s.obj p).sh) .any s := by
  simp only [sharemapGet, onSharemap, mapGet, onTable, wp_bind, wp_derefAs, wp_zoom,
    implies_true, and_true]
  intro _ _
  exact wp_weaken wp_hashGet fun sh t ht => ⟨ht.2, modObj_eq (g := Kobject.sh) rfl⟩

lemma shareCoObj_finds (sh : Kobj) (id : ℕ) (type : Option KobjType) (s : Machine) :
    wp (shareCoObj sh id type) (fun ko _ => s.objOf sh id = some ko) .any s := by
  simp only [shareCoObj, onShareMap, mapGet, onTable, wp_bind, wp_derefAs, wp_zoom,
    implies_true, and_true]
  intro _ _
  refine wp_weaken wp_hashGet fun sb t ht => ?_
  obtain ⟨_, hv⟩ := ht
  simp only [getInfo, wp_rules, wp_derefAs, wp_deref, modObj_self, implies_true, and_true, true_and]
  intro _ _ _ _
  refine wp_any_of fun _ _ => wp_any_of fun _ _ => wp_any_of fun _ _ => ?_
  obtain ⟨r, hr, rfl⟩ := Option.map_eq_some_iff.mp hv
  simp only [objOf, hr, Option.map_some]

lemma kobjGet_refers (a : Kobj) (ref : SobjRef) (type : KobjType) (s : Machine) :
    wp (kobjGet a ref type) (fun ko _ => s.refers a ref = some ko) .any s := by
  simp only [kobjGet, theProcessor, wp_rules, wp_processorSched, wp_derefAs, implies_true, and_true]
  intro ps hps _ _ _ _
  refine ⟨fun hhit => ?_, fun hmiss => ?_⟩
  · simp only [refers, hps, Option.bind_some, if_pos hhit]
  · have hfind : wp (processorCoObj ps ref (some type)) (fun ko _ => s.refers a ref = some ko)
        .any s := by
      simp only [processorCoObj, sharemapCoObj, wp_bind]
      refine wp_post (sharemapGet_finds ps ref.share s) fun sh t ht => ?_
      obtain ⟨hsh, hsame⟩ := ht
      simp only [refers, hps, Option.bind_some, if_neg hmiss, hsh]
      by_cases hself : ref.share = ref.object
      · rw [if_pos hself, if_pos hself]
        exact rfl
      · rw [if_neg hself, if_neg hself]
        refine wp_post (shareCoObj_finds sh ref.object (some type) t) fun ko _ hko => ?_
        simpa only [objOf, hsame] using hko
    refine wp_post hfind fun ko t hko => ?_
    exact ⟨fun _ => wp_any_of fun _ _ => wp_any_of fun _ _ => wp_any_of fun _ _ => hko,
      fun _ => wp_any_of fun _ _ => wp_any_of fun _ _ => hko⟩

/-! ### One interior slot -/

/-- Of all trees only `a` may have got another pagemap. -/
structure Relinked (a : Kobj) (s s' : Machine) : Prop where
  user : SameUser s s'
  atRange : s'.atRange = s.atRange
  atPgmap : ∀ p ≠ a, (s'.obj p).tree.atPgmap = (s.obj p).tree.atPgmap

namespace Relinked

lemma of_trees (h : SameTrees s s') : Relinked a s s' :=
  ⟨h.user, h.atRange, fun p _ => h.atPgmap p⟩

lemma trans (h : Relinked a s t) (h' : Relinked a t s') : Relinked a s s' :=
  ⟨h.user.trans h'.user, h'.atRange.trans h.atRange,
    fun p hp => (h'.atPgmap p hp).trans (h.atPgmap p hp)⟩

lemma slotFor (h : Relinked a s s') (p : Kobj) (va req : ℕ) :
    s'.slotFor p va req = s.slotFor p va req := by
  simp only [Machine.slotFor, h.user.uaddrmap, h.user.nents, h.atRange]

end Relinked

lemma onPagemap_relinked {α : Type} (a : Kobj)
    (m : Comp Errno (Option Pagemap × Forest TreeId) α) :
    Steps (Relinked a) (onPagemap a m) := .of_rel fun s _ => by
  have hobj : ∀ r : Option Pagemap × Forest TreeId, Relinked a s (modObj a
      (fun o => { o with tree := { o.tree with atPgmap := r.1 } }) { s with forest := r.2 }) :=
    fun r =>
    have hmod : SameUser { s with forest := r.2 } _ := .modObj rfl rfl
    ⟨⟨hmod.obj, rfl⟩, rfl, fun p hp => by rw [modObj_of_ne hp]⟩
  exact hobj _

lemma putInterior_relinked (a : Kobj) (va : ℕ) (b : Kobj) :
    Steps (Relinked a) (putInterior a va b) :=
  have hd : ∀ p, Steps (Relinked a) (derefAs .addressTree p) := fun p =>
    (derefAs_quiet _ p).mono fun _ _ => .of_trees
  .bind (hd _) fun _ => .bind (hd _) fun _ => .bind (.need _ _) fun _ => .bind (.need _ _)
    fun _ => onPagemap_relinked _ _

lemma fillInterior_relinked (a : Kobj) (u : UAddressMapping) (va : ℕ) :
    Steps (Relinked a) (fillInterior a u va) :=
  have ht : ∀ {α : Type} {m : KM α}, Steps SameTrees m → Steps (Relinked a) m := fun h =>
    h.mono fun _ _ => .of_trees
  .ite (.raise _) <| .bind (ht (kobjGet_trees _ _ _)) fun _ => .bind (derefAs_quiet _ _)
    fun _ => .ite (.raise _) <| .bind (ht (linkMapping_trees _ _ _)) fun _ =>
      .join (putInterior_relinked _ _ _) fun _ => .pure _

def hopVa (u : UAddressMapping) (va : ℕ) : ℕ := (va + word64 - rounddown u.va pisize) % word64

lemma asArchPutinterior_ok {pid : ℕ} {p : Ppn} (x : PmTable 3 × Forest TreeId) :
    wp (asArchPutinterior pid va b p) (fun _ x' => x'.1.linkOn va = some b ∨
      x'.1.linkOn va = x.1.linkOn va ∧ x.1.linkOn va ≠ none) .any x := by
  have h3 : (x.1 (pdx 3 va)).link? = none := by cases x.1 (pdx 3 va) <;> rfl
  simp only [asArchPutinterior, wp_rules, implies_true, and_true]
  intro _
  refine wp_weaken (ensureTable_paves pid x h3) fun _ y ht => ?_
  obtain ⟨hpave, q, ent, hent⟩ := ht
  rw [wp_under hent]
  simp only [wp_rules]
  refine ⟨fun _ => .inl ?_, fun hsome => ⟨fun hlink => .inr ?_, fun _ => trivial⟩⟩
  · rw [linkOn_root, update_self]
    simp only [PmEnt.sub, update_self]
    rfl
  · have hy : (update y.1 (pdx 3 va) (.table q ent)) = y.1 := by
      rw [← hent, update_eq_self]
    rw [hy, ← hpave.linkOn va]
    refine ⟨rfl, fun hno => ?_⟩
    rw [linkOn_root, hent] at hno
    have hnone : (ent (pdx 2 va)).link? = none := Option.map_eq_none_iff.mp hno
    rw [hnone] at hlink
    cases hlink

lemma putInterior_links (hpm : (s.obj a).tree.atPgmap = some pm)
    (hint : pm.int = false) (hb : pm.linkAt va = none ∨ pm.linkAt va = some b) :
    wp (putInterior a va b) (fun _ t => ∃ pm', (t.obj a).tree.atPgmap = some pm' ∧
      pm'.int = false ∧ pm'.linkAt va = some b) .any s := by
  simp only [putInterior, wp_bind, wp_derefAs, wp_need, onPagemap, wp_zoom, wp_focus,
    implies_true, and_true]
  intro _ _ _ _ pm1 hpm1 im _
  cases hpm.symm.trans hpm1
  simp only [hpm, theMap, Option.getD_some, Option.map_some]
  rw [if_neg (by simp [hint]), wp_focus]
  refine wp_weaken (asArchPutinterior_ok _) fun _ x hx => ?_
  refine ⟨{ pm with root := x.1 }, by simp [rootOf], hint, ?_⟩
  rw [@Pagemap.linkAt_root { pm with root := x.1 } hint va]
  rw [Pagemap.linkAt_root hint] at hb
  rcases hx with hx | ⟨hx, hne⟩
  · exact hx
  · exact hx.trans (hb.resolve_left hne)

lemma linkMapping_ok (u : UAddressMapping) (b : Kobj) (s : Machine) :
    wp (linkMapping a u b) (fun new t => SameTrees s t ∧
      (new = true ↔ ((s.obj a).tree.addrmap u.kslot).amKobj = none)) .any s := by
  have hval : wp (linkMapping a u b) (fun new _ => new = true ↔
      ((s.obj a).tree.addrmap u.kslot).amKobj = none) .any s := by
    have ham : wp (atGetAddrmap a u.kslot) (fun am _ => am = (s.obj a).tree.addrmap u.kslot)
        .any s := by
      simp only [atGetAddrmap, getAm, wp_bind, wp_derefAs, wp_state, implies_true, and_true]
      intro _ _
      rw [wp_ite]
      refine ⟨fun _ => ?_, fun _ => ?_⟩
      · rw [wp_bind, onArrays, wp_zoom]
        refine wp_any_of fun _ _ => ?_
        simp only [wp_bind, wp_derefAs, wp_pure, implies_true, and_true]
      · simp only [wp_bind, wp_derefAs, wp_pure, implies_true, and_true]
    rw [linkMapping, wp_bind]
    refine wp_post ham fun am t ham => ?_
    simp only [wp_bind, wp_require, implies_true, and_true]
    intro _
    by_cases hnone : am.amKobj = none
    · rw [if_pos hnone, wp_bind, ← ham]
      refine wp_any_of fun _ _ => ?_
      rw [wp_bind]
      exact wp_any_of fun _ _ => ⟨fun _ => hnone, fun _ => rfl⟩
    · rw [if_neg hnone, ← ham]
      exact ⟨by simp, fun h => (hnone h).elim⟩
  exact wp_weaken (wp_and (trees_ok (linkMapping_trees a u b) s) hval) fun _ _ => id

/-- The link that an interior slot needs is there, or it will be made. -/
def Machine.LinksTo (s : Machine) (a : Kobj) (u : UAddressMapping) (va : ℕ) (b : Kobj) : Prop :=
  ∃ pm, (s.obj a).tree.atPgmap = some pm ∧ pm.int = false ∧ (pm.linkAt va = some b ∨
    pm.linkAt va = none ∧ ((s.obj a).tree.addrmap u.kslot).amKobj = none)

lemma fillInterior_ok (u : UAddressMapping) (va : ℕ) (s : Machine) :
    wp (fillInterior a u va) (fun r t => Relinked a s t ∧ s.refers a u.object = some r.1 ∧
      r.2 = hopVa u va ∧ (s.LinksTo a u va r.1 → ∃ pm', (t.obj a).tree.atPgmap = some pm' ∧
        pm'.int = false ∧ pm'.linkAt va = some r.1)) .any s := by
  have hval : wp (fillInterior a u va) (fun r t => s.refers a u.object = some r.1 ∧
      r.2 = hopVa u va ∧ (s.LinksTo a u va r.1 → ∃ pm', (t.obj a).tree.atPgmap = some pm' ∧
        pm'.int = false ∧ pm'.linkAt va = some r.1)) .any s := by
    simp only [fillInterior, wp_ite, wp_raise, implies_true, true_and]
    intro _
    rw [wp_bind]
    have hget : wp (kobjGet a u.object .addressTree) (fun b t => SameTables s t ∧
        s.refers a u.object = some b) .any s :=
      wp_weaken (wp_and (Same.ok (.refl s) (kobjGet_tables a u.object .addressTree))
        (kobjGet_refers a u.object _ s)) fun _ _ => id
    refine wp_post hget fun b t ht => ?_
    obtain ⟨ht, hb⟩ := ht
    simp only [wp_bind, wp_derefAs, wp_ite, wp_raise, implies_true, and_true, true_and]
    intro _ _ _
    refine wp_post (linkMapping_ok u b t) fun new v ht => ?_
    obtain ⟨hv, hnew⟩ := ht
    have haddrmap : (t.obj a).tree.addrmap = (s.obj a).tree.addrmap :=
      congrArg (·.2.addrmap) (ht.obj a)
    have hpgmap : (v.obj a).tree.atPgmap = (s.obj a).tree.atPgmap :=
      (hv.atPgmap a).trans ((SameTrees.of_tables ht).atPgmap a)
    rw [haddrmap] at hnew
    refine ⟨fun hn => ?_, fun hn => ?_⟩
    · by_cases hl : s.LinksTo a u va b
      · obtain ⟨pm, hpm, hint, hlink⟩ := hl
        refine wp_post (putInterior_links (hpgmap.trans hpm) hint
          (hlink.symm.imp_left And.left)) fun _ w hw => ⟨hb, rfl, fun _ => hw⟩
      · exact wp_any_of fun _ _ => ⟨hb, rfl, fun h => (hl h).elim⟩
    · refine ⟨hb, rfl, ?_⟩
      rintro ⟨pm, hpm, hint, hlink⟩
      refine ⟨pm, hpgmap.trans hpm, hint, ?_⟩
      exact hlink.resolve_right fun h => hn (hnew.mpr h.2)
  exact wp_weaken (wp_and ((fillInterior_relinked a u va).wp_any
    (fun _ _ hR hI => Relinked.trans hI hR) (Relinked.of_trees (.refl s))) hval) fun _ _ => id

/-! ### Faults that are handled -/

lemma pdx_rounddown (l va : ℕ) : pdx l (rounddown va pgsize) = pdx l va := by
  have hdiv : rounddown va pgsize / 2 ^ 12 = va / 2 ^ 12 := by
    simp only [rounddown, pgsize]
    omega
  simp only [pdx, Nat.pow_add, ← Nat.div_div_eq_div_mul, hdiv]

lemma lookup_congr {l va' : ℕ} (t : PmTable l) (h : pageLow l va = pageLow l va') :
    t.lookup va = t.lookup va' := by
  induction l with
  | zero =>
    have hdx : pdx 0 va = pdx 0 va' := h
    rw [PmTable.lookup, PmTable.lookup, hdx]
  | succ l ih =>
    obtain ⟨hdx, hlow⟩ := pageLow_eq_iff.mp h
    rw [PmTable.lookup, PmTable.lookup, hdx]
    exact ih _ hlow

lemma pageLow_rounddown (l va : ℕ) : pageLow l (rounddown va pgsize) = pageLow l va := by
  have hdiv : rounddown va pgsize / 2 ^ 12 = va / 2 ^ 12 := by
    simp only [rounddown, pgsize]
    omega
  rw [pageLow, hdiv, pageLow]

lemma linkAt_rounddown (pm : Pagemap) (va : ℕ) :
    pm.linkAt (rounddown va pgsize) = pm.linkAt va := by
  rw [Pagemap.linkAt, Pagemap.linkAt, pdx_rounddown, pdx_rounddown]

lemma lookup_rounddown (pm : Pagemap) (va : ℕ) :
    pm.lookup (rounddown va pgsize) = pm.lookup va := by
  rw [Pagemap.lookup, Pagemap.lookup, lookup_congr _ (pageLow_rounddown 1 va),
    lookup_congr _ (pageLow_rounddown 3 va)]

lemma entAt_rounddown (s : Machine) (a : Kobj) (va : ℕ) :
    s.entAt a (rounddown va pgsize) = s.entAt a va := by
  simp only [Machine.entAt, linkAt_rounddown, lookup_rounddown]

/-- In the tables of the interior tree the page is the same: only whole gigabytes are
subtracted. -/
lemma lookup_hopVa (hint : pm.int = true) (hu : u.va < word64) :
    pm.lookup (rounddown (hopVa u (rounddown va pgsize)) pgsize) = pm.lookup va := by
  rw [lookup_rounddown, Pagemap.lookup_int hint, Pagemap.lookup_int hint]
  refine lookup_congr _ ?_
  simp only [pageLow, hopVa, rounddown, pisize, pgsize, word64] at *
  omega

/-- For an interior slot: the tree it refers to has the pagemap of an interior tree, which is or
will be linked to at the address, and has itself no interior slot there. -/
structure Machine.Straight (s : Machine) (a : Kobj) (u : UAddressMapping) (va req : ℕ)
    (b : Kobj) : Prop where
  int : ∃ pb, (s.obj b).tree.atPgmap = some pb ∧ pb.int = true
  link : s.LinksTo a u va b
  slot : ∀ j, s.slotFor b (hopVa u (rounddown va pgsize)) req = some j →
    ((s.obj b).tree.uaddrmap j).type ≠ addressMappingInterior

lemma afterSlot_refers (s : Machine) (a : Kobj) (va req i : ℕ) (p : Kobj) (ref : SobjRef) :
    (s.afterSlot a va req i).refers p ref = s.refers p ref := by
  rcases afterSlot_cases s a va req i with h | h
  · rw [h]
  · rw [h]
    rfl

lemma afterSlot_slotFor (hb : b ≠ a) (va' req' : ℕ) :
    (s.afterSlot a va req i).slotFor b va' req' = s.slotFor b va' req' := by
  rcases afterSlot_cases s a va req i with h | h
  · rw [h]
  · have hrange : (s.cacheSlot a i).atRange b = s.atRange b := update_of_ne hb _ _
    rw [h, slotFor, hrange]
    rfl

lemma interior_fault_present (ha : s.IsRoot a)
    (hwide : ((s.obj a).tree.uaddrmap i).va < word64) (hi : s.slotFor a va req = some i)
    (htype : ((s.obj a).tree.uaddrmap i).type = addressMappingInterior)
    (hslot : ∀ b, s.refers a ((s.obj a).tree.uaddrmap i).object = some b →
      s.Straight a ((s.obj a).tree.uaddrmap i) va req b) :
    wp (atPmapFill fuel a va req)
      (fun _ t => ∃ e, e.Allows req ∧ t.pteAt a va = some e) .any s := by
  rw [atPmapFill, wp_bind]
  cases fuel with
  | zero => trivial
  | succ fuel =>
    rw [findTarget, wp_bind]
    refine wp_post (chooseSlot_ok req s) fun j t ht => ?_
    obtain ⟨hj, ht⟩ := ht
    cases hi.symm.trans hj
    have hgt : Grows (Pte.Allows req) s t := ht ▸ afterSlot_grows _ s a va req i
    have hobj : t.obj = s.obj := ht ▸ afterSlot_obj s a va req i
    simp only [getObj, wp_bind, wp_state, wp_pure, hobj]
    rw [if_pos htype, wp_bind]
    refine wp_post (fillInterior_ok _ _ t) fun r v ht => ?_
    obtain ⟨hv, hr, hva, hlink⟩ := ht
    have hst := hslot r.1 (by rw [← hr, ht, afterSlot_refers])
    obtain ⟨pb, hpb, hint⟩ := hst.int
    have hne : r.1 ≠ a := by
      rintro hra
      obtain ⟨pm, hpm, hroot⟩ := ha
      rw [hra, hpm] at hpb
      cases hpb
      exact absurd hint (by simp [hroot])
    -- the root links to the interior tree now
    obtain ⟨pm, hpm, hroot, hlinkv⟩ := hlink (by
      obtain ⟨pm, hpm, hroot, hl⟩ := hst.link
      exact ⟨pm, by rw [hobj, hpm], hroot, by rwa [linkAt_rounddown, hobj]⟩)
    rw [linkAt_rounddown] at hlinkv
    -- and in that tree the fault ends at a segment
    have hsegv : ∀ j, v.slotFor r.1 r.2 req = some j →
        ((v.obj r.1).tree.uaddrmap j).type ≠ addressMappingInterior := by
      intro j hj
      rw [hv.slotFor, ht, afterSlot_slotFor hne, hva] at hj
      rw [hv.user.uaddrmap, hobj]
      exact hst.slot j hj
    have hpbv : (v.obj r.1).tree.atPgmap = some pb := by rw [hv.atPgmap r.1 hne, hobj, hpb]
    have hfill : wp (atPmapFill fuel r.1 r.2 req) _ .any v := atPmapFill_segment hsegv
    refine wp_bind.mp (wp_post hfill fun _ w hw => ?_)
    obtain ⟨-, -, -, hg, -, e, he, hent⟩ := hw
    obtain ⟨pbw, hpbw, hgb⟩ := hg.some_of hpbv
    obtain ⟨pmw, hpmw, hgm⟩ := hg.some_of hpm
    have hintw : pbw.int = true := hgb.int.trans hint
    refine ⟨e, he, ?_⟩
    rw [(hg.isRoot ⟨pm, hpm, hroot⟩).pteAt,
      entAt_linked hpmw ((hgm.linkAt va).trans hlinkv) hpbw hintw,
      ← lookup_hopVa (u := (s.obj a).tree.uaddrmap i) hintw hwide, ← hva, ← hent,
      entAt_eq hpbw (Pagemap.linkAt_int hintw _)]

/-- **A handled page fault makes progress** if an interior slot it uses leads straight to a page:
then the walk of the processor finds an entry that allows what was asked for. -/
theorem handled_fault_present (ha : s.IsRoot a)
    (hwide : ∀ i, s.slotFor a va req = some i → ((s.obj a).tree.uaddrmap i).va < word64)
    (hslot : ∀ i b, s.slotFor a va req = some i →
      ((s.obj a).tree.uaddrmap i).type = addressMappingInterior →
      s.refers a ((s.obj a).tree.uaddrmap i).object = some b →
      s.Straight a ((s.obj a).tree.uaddrmap i) va req b)
    (h : atPagefault fuel a va req s = (.ok (), s')) :
    ∃ e, e.Allows req ∧ s'.pteAt a va = some e := by
  have hwp : wp (atPagefault fuel a va req)
      (fun _ t => ∃ e, e.Allows req ∧ t.pteAt a va = some e) Exits.any s := by
    refine atPagefault_ok ?_
    by_cases hseg : ∀ i, s.slotFor a va req = some i →
        ((s.obj a).tree.uaddrmap i).type ≠ addressMappingInterior
    · refine wp_post (atPmapFill_segment hseg) fun _ t ⟨i, _, _, hg, _, e, he, hent⟩ => ?_
      rw [entAt_rounddown] at hent
      exact ⟨e, he, ((hg.isRoot ha).pteAt va).trans hent⟩
    · push Not at hseg
      obtain ⟨i, hi, htype⟩ := hseg
      exact interior_fault_present ha (hwide i hi) hi htype (hslot i · hi htype)
  have hend := wp_ok hwp h
  exact hend

/-- A slot for the first page of the segment with id 4. -/
def pageSlot (kslot va : ℕ) : UAddressMapping :=
  { type := addressMappingSegment, object := ⟨1, 4⟩, kslot := kslot, flags := 6, va := va
    numPages := 1 }

/-- The tree of the boot processor maps an interior tree, which has these slots. -/
def innerRun (slots : List UAddressMapping) (va : ℕ) : List Event :=
  [⟨0, .syscall (.segmentAlloc 1 4096 0)⟩, ⟨0, .syscall (.atAlloc 1 1 0)⟩] ++
  slots.map (fun u => ⟨0, .syscall (.atSetSlot ⟨1, 5⟩ u)⟩) ++
  [⟨0, .syscall (.atSetSlot ⟨1, 3⟩
    { type := addressMappingInterior, object := ⟨1, 5⟩, flags := 6, va := va })⟩]

/-- What decides about a fault of the boot processor that goes on in the interior tree. -/
def straightCheck (va : ℕ) (s : Machine) : Bool :=
  let u := (s.obj 2).tree.uaddrmap 0
  decide (((atPagefault 2 2 va 6).result s).isSome ∧ s.slotFor 2 va 6 = some 0 ∧ u.va < word64 ∧
    s.refers 2 u.object = some 4 ∧ (s.obj 4).tree.atPgmap.map Pagemap.int = some true ∧
    (s.obj 2).tree.atPgmap.map Pagemap.int = some false ∧
    (s.obj 2).tree.atPgmap.map (·.linkAt va) = some none ∧
    ((s.obj 2).tree.addrmap u.kslot).amKobj = none ∧
    s.slotFor 4 (hopVa u (rounddown va pgsize)) 6 = some 0 ∧
    ((s.obj 4).tree.uaddrmap 0).type = addressMappingSegment)

/-- A page of the interior tree is used for the first time. -/
theorem handled_fault_present_inner :
    ∃ s s', kernel.Reachable s ∧ atPagefault 2 2 0x40000000 6 s = (.ok (), s') ∧
      ∃ e, e.Allows 6 ∧ s'.pteAt 2 0x40000000 = some e := by
  obtain ⟨s, hs, hx⟩ := reachable_of_bootRun 40 1 (innerRun [pageSlot 0 0] 0x40000000)
    (P := (straightCheck 0x40000000 · = true)) (by decide +kernel)
  obtain ⟨hok, hslot, hva, hrefers, hint, hroot, hlink, ham, hslot4, htype4⟩ := of_decide_eq_true hx
  obtain ⟨⟨_, s'⟩, hr⟩ := Option.isSome_iff_exists.mp hok
  obtain ⟨pb, hpb, hint⟩ := Option.map_eq_some_iff.mp hint
  obtain ⟨pm, hpm, hroot⟩ := Option.map_eq_some_iff.mp hroot
  have hlink : pm.linkAt 0x40000000 = none := by simpa [hpm] using hlink
  refine ⟨s, s', hs, result_eq_some.mp hr, handled_fault_present ⟨pm, hpm, hroot⟩
    (fun i hi => ?_) (fun i b hi _ hb => ?_) (result_eq_some.mp hr)⟩
  · cases hslot.symm.trans hi
    exact hva
  · cases hslot.symm.trans hi
    cases hrefers.symm.trans hb
    refine ⟨⟨pb, hpb, hint⟩, ⟨pm, hpm, hroot, .inr ⟨hlink, ham⟩⟩, fun j hj => ?_⟩
    cases hslot4.symm.trans hj
    rw [htype4]
    decide

/-- The slot of an interior tree begins in the middle of a gigabyte. A fault before the end of the
gigabyte has made a link there; one after it is handled, and the address stays without an
entry. -/
theorem handled_fault_not_present :
    ∃ s s', kernel.Reachable s ∧ s.IsRoot 2 ∧ atPagefault 2 2 0x80000000 6 s = (.ok (), s') ∧
      s'.pteAt 2 0x80000000 = none := by
  obtain ⟨s, hs, ⟨pm, hroot⟩, ⟨_, s'⟩, hr, hpte⟩ := reachable_of_bootRun 40 1 (innerRun
    [pageSlot 0 0x10000000, pageSlot 1 0x40000000] 0x50000000 ++ [⟨0, .fault 2 0x50000000 6⟩])
    (P := fun s => (∃ pm ∈ (s.obj 2).tree.atPgmap, pm.int = false) ∧
      ∃ r ∈ (atPagefault 2 2 0x80000000 6).result s, r.2.pteAt 2 0x80000000 = none)
    (by decide +kernel)
  exact ⟨s, s', hs, ⟨pm, hroot⟩, result_eq_some.mp hr, hpte⟩

/-! ### How deep a fault goes -/

/-- `at_pmap_fill` up to the page of a segment, where the call below the `n`th one does what
`bottom` says. -/
def fillFrom (bottom : Kobj → ℕ → ℕ → KM Target) : ℕ → Kobj → ℕ → ℕ → KM Target
  | 0, a, va, reqflags => bottom a va reqflags
  | n + 1, a, va, reqflags => do
    let i ← chooseSlot a va reqflags
    let o ← getObj a
    let u := o.tree.uaddrmap i
    let vaAlign := rounddown va pgsize
    if u.type = addressMappingInterior then do
      let r ← fillInterior a u vaAlign
      fillFrom bottom n r.1 r.2 reqflags
    else fillSegment a u vaAlign

lemma findTarget_eq_fillFrom : ∀ (fuel : ℕ) (a : Kobj) (va req : ℕ),
    findTarget fuel a va req = fillFrom (fun _ _ _ => halt .panic) fuel a va req
  | 0, _, _, _ => rfl
  | fuel + 1, a, va, req => by
    simp only [findTarget, fillFrom, findTarget_eq_fillFrom fuel]

/-- The fault makes no more than `n` calls of `at_pmap_fill`, one inside the other: what a call
below them would do makes no difference. -/
def DepthAtMost (n : ℕ) (s : Machine) (a : Kobj) (va reqflags : ℕ) : Prop :=
  ∀ bottom bottom', fillFrom bottom n a va reqflags s = fillFrom bottom' n a va reqflags s

/-- The tree an interior slot refers to does not use an interior slot itself. -/
def Machine.NotNested (s : Machine) (a : Kobj) (va reqflags : ℕ) : Prop :=
  ∀ i b, s.slotFor a va reqflags = some i →
    ((s.obj a).tree.uaddrmap i).type = addressMappingInterior →
    s.refers a ((s.obj a).tree.uaddrmap i).object = some b →
    ∀ j, (s.afterSlot a va reqflags i).slotFor b
        (hopVa ((s.obj a).tree.uaddrmap i) (rounddown va pgsize)) reqflags = some j →
      ((s.obj b).tree.uaddrmap j).type ≠ addressMappingInterior

/-- One call that goes on in another tree. -/
structure Hop (a : Kobj) (va req : ℕ) (s : Machine) (r : Kobj × ℕ) (t : Machine) : Prop where
  slot : ∃ i, s.slotFor a va req = some i ∧
    ((s.obj a).tree.uaddrmap i).type = addressMappingInterior ∧
    s.refers a ((s.obj a).tree.uaddrmap i).object = some r.1 ∧
    r.2 = hopVa ((s.obj a).tree.uaddrmap i) (rounddown va pgsize) ∧
    ∀ p va' req', t.slotFor p va' req' = (s.afterSlot a va req i).slotFor p va' req'
  uaddrmap : ∀ p, (t.obj p).tree.uaddrmap = (s.obj p).tree.uaddrmap
  runs : ∀ bottom n, fillFrom bottom (n + 1) a va req s = fillFrom bottom n r.1 r.2 req t

lemma fillFrom_cases (a : Kobj) (va req : ℕ) (s : Machine) :
    (∃ x, (∀ bottom n, fillFrom bottom (n + 1) a va req s = x) ∧
      ∀ y t, x = (.ok y, t) → ∀ i, s.slotFor a va req = some i →
        ((s.obj a).tree.uaddrmap i).type ≠ addressMappingInterior) ∨
    ∃ r t, Hop a va req s r t := by
  have hstep : ∀ bottom n, fillFrom bottom (n + 1) a va req s = Comp.bind (chooseSlot a va req)
      (fun i => do
        let o ← getObj a
        if (o.tree.uaddrmap i).type = addressMappingInterior then do
          let r ← fillInterior a (o.tree.uaddrmap i) (rounddown va pgsize)
          fillFrom bottom n r.1 r.2 req
        else fillSegment a (o.tree.uaddrmap i) (rounddown va pgsize)) s := fun _ _ => rfl
  rcases hc : chooseSlot a va req s with ⟨i | e | w, t⟩
  · obtain ⟨hi, ht⟩ := wp_ok (chooseSlot_ok req s) hc
    have hobj : t.obj = s.obj := ht ▸ afterSlot_obj s a va req i
    have hnext : ∀ bottom n, fillFrom bottom (n + 1) a va req s =
        (if ((s.obj a).tree.uaddrmap i).type = addressMappingInterior then do
          let r ← fillInterior a ((s.obj a).tree.uaddrmap i) (rounddown va pgsize)
          fillFrom bottom n r.1 r.2 req
        else fillSegment a ((s.obj a).tree.uaddrmap i) (rounddown va pgsize)) t := by
      intro bottom n
      rw [hstep, Comp.bind, hc, ← hobj]
      rfl
    by_cases htype : ((s.obj a).tree.uaddrmap i).type = addressMappingInterior
    · rcases hf : fillInterior a ((s.obj a).tree.uaddrmap i) (rounddown va pgsize) t with
        ⟨r | e | w, v⟩
      · obtain ⟨hv, hr, hva, -⟩ := wp_ok (fillInterior_ok _ _ t) hf
        refine .inr ⟨r, v, ⟨i, hi, htype, ?_, hva, fun p va' req' => ?_⟩, fun p => ?_,
          fun bottom n => ?_⟩
        · rw [← hr, ht, afterSlot_refers]
        · rw [hv.slotFor, ht]
        · rw [hv.user.uaddrmap, hobj]
        · rw [hnext, if_pos htype, bind_of_ok hf]
      · refine .inl ⟨(.err e, v), fun bottom n => ?_, by simp⟩
        rw [hnext, if_pos htype]
        show Comp.bind _ _ _ = _
        rw [Comp.bind, hf]
      · refine .inl ⟨(.stop w, v), fun bottom n => ?_, by simp⟩
        rw [hnext, if_pos htype]
        show Comp.bind _ _ _ = _
        rw [Comp.bind, hf]
    · refine .inl ⟨_, fun bottom n => by rw [hnext, if_neg htype], fun _ _ _ j hj => ?_⟩
      cases hi.symm.trans hj
      exact htype
  · exact .inl ⟨(.err e, t), fun bottom n => by rw [hstep, Comp.bind, hc], by simp⟩
  · exact .inl ⟨(.stop w, t), fun bottom n => by rw [hstep, Comp.bind, hc], by simp⟩

lemma Hop.nested {r r' : Kobj × ℕ} (h : Hop a va req s r t)
    (h' : Hop r.1 r.2 req t r' v) : ¬ s.NotNested a va req := by
  intro hno
  obtain ⟨i, hi, htype, hb, hva, hslots⟩ := h.slot
  obtain ⟨j, hj, htype', -, -, -⟩ := h'.slot
  rw [hslots, hva] at hj
  rw [h.uaddrmap] at htype'
  exact hno i r.1 hi htype hb j hj htype'

lemma Hop.deep {r r' : Kobj × ℕ} (h : Hop a va req s r t)
    (h' : Hop r.1 r.2 req t r' v) : ¬ DepthAtMost 2 s a va req := by
  intro hd
  have hrun : ∀ bottom, fillFrom bottom 2 a va req s = bottom r'.1 r'.2 req v := fun bottom => by
    rw [h.runs, h'.runs, fillFrom]
  have heq := hd (fun _ _ _ => halt .panic) fun _ _ _ => raise .inval
  rw [hrun, hrun] at heq
  exact nomatch congrArg Prod.fst heq

lemma depthAtMost_two (h : s.NotNested a va req) : DepthAtMost 2 s a va req := by
  intro bottom bottom'
  rcases fillFrom_cases a va req s with ⟨x, hx, -⟩ | ⟨r, t, hop⟩
  · rw [hx, hx]
  · rw [hop.runs, hop.runs]
    rcases fillFrom_cases r.1 r.2 req t with ⟨x, hx, -⟩ | ⟨r', v, hop'⟩
    · rw [hx, hx]
    · exact absurd h (hop.nested hop')

lemma notNested_of_depth (h : atPagefault fuel a va req s = (.ok (), s'))
    (hd : DepthAtMost 2 s a va req) : s.NotNested a va req := by
  intro i b hi htype hb j hj htype'
  obtain ⟨x, w, hx, -⟩ := bind_eq_ok (onErr_eq_ok h)
  rw [findTarget_eq_fillFrom] at hx
  cases fuel with
  | zero => exact nomatch hx
  | succ n =>
    rcases fillFrom_cases a va req s with ⟨y, hy, hend⟩ | ⟨r, t, hop⟩
    · exact hend x w ((hy _ n).symm.trans hx) i hi htype
    · obtain ⟨i', hi', -, hb', hva, hslots⟩ := hop.slot
      cases hi.symm.trans hi'
      cases hb.symm.trans hb'
      rw [hop.runs] at hx
      cases n with
      | zero => exact nomatch hx
      | succ n =>
        rcases fillFrom_cases r.1 r.2 req t with ⟨y, hy, hend⟩ | ⟨r', v, hop'⟩
        · refine hend x w ((hy _ n).symm.trans hx) j ?_ (by rwa [hop.uaddrmap])
          rw [hslots, hva]
          exact hj
        · exact hop.deep hop' hd

/-- **A fault goes no deeper than two calls** if the tree that an interior slot leads to uses no
interior slot for the address, and only then if the fault is handled. -/
theorem fault_depth_at_most_two (s : Machine) (a : Kobj) (va req : ℕ) :
    (s.NotNested a va req → DepthAtMost 2 s a va req) ∧
    ∀ fuel s', atPagefault fuel a va req s = (.ok (), s') →
      (DepthAtMost 2 s a va req ↔ s.NotNested a va req) :=
  ⟨depthAtMost_two, fun _ _ h => ⟨notNested_of_depth h, depthAtMost_two⟩⟩

/-- The fault of the boot processor at the page of the interior tree. -/
theorem fault_depth_at_most_two_inner :
    ∃ s s', kernel.Reachable s ∧ atPagefault 2 2 0x40000000 6 s = (.ok (), s') ∧
      s.NotNested 2 0x40000000 6 ∧ DepthAtMost 2 s 2 0x40000000 6 := by
  obtain ⟨s, hs, hx⟩ := reachable_of_bootRun 40 1 (innerRun [pageSlot 0 0] 0x40000000)
    (P := (straightCheck 0x40000000 · = true)) (by decide +kernel)
  obtain ⟨hok, hslot, -, hrefers, -, -, -, -, hslot4, htype4⟩ := of_decide_eq_true hx
  obtain ⟨⟨_, s'⟩, hr⟩ := Option.isSome_iff_exists.mp hok
  have hno : s.NotNested 2 0x40000000 6 := by
    intro i b hi _ hb j hj
    cases hslot.symm.trans hi
    cases hrefers.symm.trans hb
    rw [afterSlot_slotFor (by decide), hslot4] at hj
    cases hj
    rw [htype4]
    decide
  exact ⟨s, s', hs, result_eq_some.mp hr, hno, (fault_depth_at_most_two s 2 0x40000000 6).1 hno⟩

/-- A tree in which a fault goes on with itself, at the same address: what the call looks at is
what the call before has left behind. -/
def selfLoop (c : Kobj) (va req : ℕ) (s : Machine) : Bool :=
  match (s.atRange c).hit (s.obj c).tree.uaddrmap va req, s.processors s.mem.cpu with
  | some i, some ps =>
    let u := (s.obj c).tree.uaddrmap i
    let o := (s.obj c).tree.atObj
    decide (u.type = addressMappingInterior ∧ hasFlags u.flags segmapWrite ∧
      (s.obj c).live ∧ (s.obj c).koType = .addressTree ∧ (s.obj c).tree.atInterior ∧
      (s.obj ps).live ∧ (s.obj ps).koType = .processor ∧
      ((s.obj ps).koId = o.psId ∧ o.ref.object ≠ 0 ∧ o.ref.object = u.object.object ∧
        o.ref.share = u.object.share) ∧ o.ko = c ∧
      u.kslot < (s.darray (atAddrmap c)).daNent ∧
      ((s.obj c).tree.addrmap u.kslot).amKobj = some c ∧ hopVa u (rounddown va pgsize) = va)
  | _, _ => false

lemma selfLoop_hop (h : selfLoop c va req s = true) : ∃ i, chooseSlot c va req s = (.ok i, s) ∧
      ((s.obj c).tree.uaddrmap i).type = addressMappingInterior ∧
      fillInterior c ((s.obj c).tree.uaddrmap i) (rounddown va pgsize) s = (.ok (c, va), s) := by
  cases hhit : (s.atRange c).hit (s.obj c).tree.uaddrmap va req with
  | none => simp [selfLoop, hhit] at h
  | some i =>
    cases hps : s.processors s.mem.cpu with
    | none => simp [selfLoop, hhit, hps] at h
    | some ps =>
      simp only [selfLoop, hhit, hps] at h
      obtain ⟨htype, hw, hlive, hty, hinner, hpl, hpt, hcache, hko, hnent, ham, hva⟩ :=
        of_decide_eq_true h
      have hget : kobjGet c ((s.obj c).tree.uaddrmap i).object .addressTree s = (.ok c, s) :=
        eq_of_wp <| by
          simp [kobjGet, theProcessor, hps, hpl, hpt, hlive, hty, if_pos hcache, hko]
      have hlink : linkMapping c ((s.obj c).tree.uaddrmap i) c s = (.ok false, s) := eq_of_wp <| by
          simp [linkMapping, atGetAddrmap, getAm, hlive, hty, ham, Nat.not_le.mpr hnent]
      refine ⟨i, eq_of_wp ?_, htype, eq_of_wp ?_⟩
      · simp [chooseSlot, hlive, hty, hhit]
      · rw [fillInterior, if_neg (by simp [hw]), wp_bind]
        refine wp_of_ok hget ?_
        rw [wp_bind, wp_derefAs]
        refine ⟨fun _ _ => ?_, fun _ hne => (hne hty).elim, fun hdead => ?_⟩
        · rw [if_neg (by simp [hinner]), wp_bind]
          refine wp_of_ok hlink ⟨?_, rfl⟩
          exact congrArg (Prod.mk c) hva
        · rw [hlive] at hdead
          cases hdead

lemma fillFrom_selfLoop (h : selfLoop c va req s = true)
    (bottom : Kobj → ℕ → ℕ → KM Target) (n : ℕ) :
    fillFrom bottom n c va req s = bottom c va req s := by
  obtain ⟨i, hslot, htype, hfill⟩ := selfLoop_hop h
  induction n with
  | zero => rfl
  | succ n ih =>
    rw [← ih, fillFrom, bind_of_ok hslot]
    show (if ((s.obj c).tree.uaddrmap i).type = addressMappingInterior then _ else _ : KM _) s = _
    rw [if_pos htype, bind_of_ok hfill]

/-- One call that goes on in another tree, on its own. -/
def hopOnce (a : Kobj) (va reqflags : ℕ) : KM (Kobj × ℕ) := do
  let i ← chooseSlot a va reqflags
  let o ← getObj a
  if (o.tree.uaddrmap i).type = addressMappingInterior then
    fillInterior a (o.tree.uaddrmap i) (rounddown va pgsize)
  else raise .inval

lemma fillFrom_hopOnce {r : Kobj × ℕ} (h : hopOnce a va req s = (.ok r, t))
    (bottom : Kobj → ℕ → ℕ → KM Target) (n : ℕ) :
    fillFrom bottom (n + 1) a va req s = fillFrom bottom n r.1 r.2 req t := by
  obtain ⟨i, u, hslot, h⟩ := bind_eq_ok h
  obtain ⟨o, u', ho, h⟩ := bind_eq_ok h
  rw [fillFrom, bind_of_ok hslot, bind_of_ok ho]
  by_cases htype : (o.tree.uaddrmap i).type = addressMappingInterior
  · rw [if_pos htype] at h
    show (if (o.tree.uaddrmap i).type = addressMappingInterior then _ else _ : KM _) u' = _
    rw [if_pos htype, bind_of_ok h]
  · rw [if_neg htype] at h
    exact nomatch h

/-- A slot of the interior tree for the tree itself. -/
def selfSlot : UAddressMapping :=
  { type := addressMappingInterior, object := ⟨1, 5⟩, flags := 6 }

/-- An interior tree with an interior slot for itself, under the tree of the boot processor. The
fault calls `at_pmap_fill` for ever. -/
theorem fault_never_ends :
    ∃ s, kernel.Reachable s ∧ ∀ n, ¬ DepthAtMost n s 2 0x40000000 6 := by
  obtain ⟨s, hs, ⟨r, t⟩, hr, ⟨q, v⟩, hq, hloop⟩ :=
    reachable_of_bootRun 40 1 (innerRun [selfSlot] 0x40000000)
      (P := fun s => ∃ r ∈ (hopOnce 2 0x40000000 6).result s,
        ∃ q ∈ (hopOnce r.1.1 r.1.2 6).result r.2, selfLoop q.1.1 q.1.2 6 q.2 = true)
      (by decide +kernel)
  refine ⟨s, hs, fun n hd => ?_⟩
  have hbottom : ∀ n, ∃ c va w, ∀ bottom,
      fillFrom bottom n 2 0x40000000 6 s = bottom c va 6 w := fun n => by
    match n with
    | 0 => exact ⟨_, _, _, fun _ => rfl⟩
    | 1 => exact ⟨_, _, _, fun bottom => fillFrom_hopOnce (result_eq_some.mp hr) bottom 0⟩
    | n + 2 =>
      refine ⟨q.1, q.2, v, fun bottom => ?_⟩
      rw [fillFrom_hopOnce (result_eq_some.mp hr), fillFrom_hopOnce (result_eq_some.mp hq),
        fillFrom_selfLoop hloop]
  obtain ⟨c, va, w, hcall⟩ := hbottom n
  have heq := hd (fun _ _ _ => halt .panic) fun _ _ _ => raise .inval
  rw [hcall, hcall] at heq
  exact nomatch congrArg Prod.fst heq

end Corey.Kern
