import Corey.Kern.Lookup

/-!
Replacing the table of an address tree (`at_from_user`).

The old mappings are forgotten, and the page table entries that were made for them are cleared
through the processors that are attached to the tree. Where there is none, the entries stay.
-/

namespace Corey.Kern

open Corey.Comp Corey.Mem

variable {s s' t : Machine} {a p : Kobj} {α : Type}

/-! ### What the entries of a table install -/

/-- The tree that is linked to where an address is mapped. -/
def Pagemap.linkAt (pm : Pagemap) (va : ℕ) : Option Kobj :=
  if pm.int then none else ((pm.root (pdx 3 va)).sub (pdx 2 va)).link?.map Prod.fst

/-- A page fault on the entry `u` could have made `e` at this address. -/
def UAddressMapping.Installs (s : Machine) (u : UAddressMapping) (va : ℕ) (e : Pte) : Prop :=
  u.type = addressMappingSegment ∧ u.serves va segmapRead = true ∧
    ∃ sg, (s.obj sg).koId = u.object.object ∧
      e = pteOf e.page u.flags (.page sg ((u.startPage + (rounddown va pgsize - u.vaStart) / pgsize)
        % word64))

/-- A page fault on the entry `u` could have linked `b` at this address. -/
def UAddressMapping.Links (s : Machine) (u : UAddressMapping) (va : ℕ) (b : Kobj) : Prop :=
  u.type = addressMappingInterior ∧ u.serves va (segmapRead ||| segmapWrite) = true ∧
    (s.obj b).koId = u.object.object

/-- The same where the link is made in an interior pagemap, two levels too low. -/
def UAddressMapping.LinksLow (s : Machine) (u : UAddressMapping) (va : ℕ) (e : Pte) : Prop :=
  ∃ va' b, u.Links s va' b ∧ pdx 3 va' = pdx 1 va ∧ pdx 2 va' = pdx 0 va ∧ e.src = .root b

/-- Every user entry of the pagemap of `a` comes from an entry of the table. -/
def FromTable (s : Machine) (a : Kobj) (ents : List UAddressMapping) : Prop :=
  ∀ pm, (s.obj a).tree.atPgmap = some pm → ∀ va < ulim,
    (∀ e, pm.lookup va = some e → ∃ i < ents.length,
      (newSlots ents i).Installs s va e ∨ (newSlots ents i).LinksLow s va e) ∧
    ∀ b, pm.linkAt va = some b → ∃ i < ents.length, (newSlots ents i).Links s va b

/-! ### What stays the same -/

abbrev SameMaps : Machine → Machine → Prop :=
  Same (fun o => (o.koId, o.tree.atPgmap, o.tree.atPsList, o.ps.psAt)) fun _ => ()

namespace SameMaps

variable (h : SameMaps s s') (p : Kobj)
include h

lemma koId : (s'.obj p).koId = (s.obj p).koId := congrArg (·.1) (h.obj p)

lemma atPgmap : (s'.obj p).tree.atPgmap = (s.obj p).tree.atPgmap := congrArg (·.2.1) (h.obj p)

lemma atPsList : (s'.obj p).tree.atPsList = (s.obj p).tree.atPsList :=
  congrArg (·.2.2.1) (h.obj p)

lemma psAt : (s'.obj p).ps.psAt = (s.obj p).ps.psAt := congrArg (·.2.2.2) (h.obj p)

lemma fromTable (ents : List UAddressMapping) :
    FromTable s' a ents ↔ FromTable s a ents := by
  simp only [FromTable, UAddressMapping.Installs, UAddressMapping.LinksLow,
    UAddressMapping.Links, koId h, atPgmap h]

end SameMaps

abbrev KeepsMaps {α : Type} (m : KM α) : Prop := Steps SameMaps m

lemma onArrays_maps (m : DaM TreeId α) : KeepsMaps (onArrays m) :=
  .of_rel fun _ _ => .of_objects rfl rfl

lemma atResize_maps (a : Kobj) (n : ℕ) : KeepsMaps (atResize a n) :=
  .bind (atNents_quiet _) fun _ => .bind .state fun _ =>
    .join (.change fun _ => .of_objects rfl rfl) fun _ =>
    .seq (onArrays_maps _) (.change fun _ => .modObj rfl rfl)

lemma amlRemove_maps (ko : Kobj) (r : AmRef) : KeepsMaps (amlRemove ko r) :=
  .bind (amlGetList_quiet _) fun _ => .change fun s => by
    refine .modObj ?_ rfl
    split <;> rfl

lemma atGetAddrmap_maps (a : Kobj) (i : ℕ) : KeepsMaps (atGetAddrmap a i) :=
  .derefAs fun _ => .bind .state fun _ => .join (onArrays_maps _) fun _ =>
    .derefAs fun _ => .pure _

lemma atClearMappings_maps (a : Kobj) : KeepsMaps (atClearMappings a) :=
  atClearMappings_steps (atGetAddrmap_maps a) amlRemove_maps fun _ =>
    .change fun _ => .modObj rfl rfl

/-! ### Invalidating everything -/

/-- No user entry is left in the pagemap. -/
def Wiped (pm : Pagemap) : Prop := ∀ va < ulim, pm.lookup va = none ∧ pm.linkAt va = none

lemma pageLow_le_last {va : ℕ} (hva : va < ulim) :
    pageLow 3 va ≤ pageLow 3 (ulim - pgsize) := by
  rw [pageLow_user hva, pageLow_user (by decide)]
  exact Nat.le_of_lt_succ (Nat.div_lt_of_lt_mul (Nat.lt_of_lt_of_le hva (by decide)))

lemma link_invalidate {l i : ℕ} (t : PmTable l) (first last : ℕ)
    (h : pdx l first ≤ i ∧ i ≤ pdx l last) :
    (t.invalidate first last i).link? = none := by
  cases l with
  | zero => simp [PmTable.invalidate, h, PmEnt.link?]
  | succ l =>
    simp only [PmTable.invalidate, if_pos h]
    cases t i <;> rfl

lemma wiped_invalidate (pm : Pagemap) : Wiped (pm.invalidate 0 (ulim - pgsize)) := by
  intro va hva
  cases hint : pm.int with
  | true =>
    -- the last address has every digit of the lower levels at its top
    have htop : pageLow 1 (ulim - pgsize) = 2 ^ (9 * (1 + 1)) - 1 := by decide
    have hlt := pageLow_lt 1 va
    simp only [Pagemap.invalidate, Pagemap.lookup, Pagemap.linkAt, hint, if_true, and_true]
    rw [lookup_invalidate _ _ _ (by omega), pageLow_bot, htop, if_pos (by omega)]
  | false =>
    simp only [Pagemap.invalidate, Pagemap.lookup, Pagemap.linkAt, hint, Bool.false_eq_true,
      if_false]
    rw [lookup_invalidate _ _ _ (Nat.le_refl 3), pageLow_bot,
      if_pos ⟨Nat.zero_le _, pageLow_le_last hva⟩]
    refine ⟨rfl, ?_⟩
    have h3 : pdx 3 0 ≤ pdx 3 va ∧ pdx 3 va ≤ pdx 3 (ulim - pgsize) :=
      ⟨Nat.zero_le _, Nat.le_of_lt_succ (pdx_user hva)⟩
    simp only [PmTable.invalidate, if_pos h3]
    cases hent : pm.root (pdx 3 va) with
    | none => rfl
    | table p ent =>
      have hlast : pdx 2 va ≤
          pdx 2 (if pdx 3 va = pdx 3 (ulim - pgsize) then ulim - pgsize else 2 ^ 64 - 1) := by
        have := pdx_lt 2 va
        split_ifs
        · exact Nat.le_of_lt_succ this
        · exact Nat.le_of_lt_succ this
      have hnone := link_invalidate ent (if pdx 3 va = pdx 3 0 then 0 else 0) _
        ⟨by split_ifs <;> exact Nat.zero_le _, hlast⟩
      exact congrArg (Option.map Prod.fst) hnone

lemma Wiped.fromTable {pm : Pagemap} (hpm : (s.obj a).tree.atPgmap = some pm) (h : Wiped pm)
    (ents : List UAddressMapping) : FromTable s a ents := by
  intro pm' hpm' va hva
  cases hpm.symm.trans hpm'
  refine ⟨fun e he => ?_, fun b hb => ?_⟩
  · rw [(h va hva).1] at he
    exact nomatch he
  · rw [(h va hva).2] at hb
    exact nomatch hb

def Machine.setPgmap (a : Kobj) (pm : Pagemap) (s : Machine) : Machine :=
  s.modObj a fun o => { o with tree := { o.tree with atPgmap := some pm } }

lemma atInvalidateRange_ok (first last : ℕ) (s : Machine) :
    wp (atInvalidateRange a first last) (fun _ s' => ∃ pm, (s.obj a).tree.atPgmap = some pm ∧
      s' = s.setPgmap a (pm.invalidate first last)) .any s := by
  simp only [atInvalidateRange, wp_rules, wp_derefAs, wp_halt, wp_modTree, implies_true, and_true,
    true_and]
  intro _ _ _ pm hpm _
  refine ⟨pm, hpm, ?_⟩
  rw [Machine.setPgmap, Machine.modObj, Machine.modObj, hpm]
  rfl

lemma atInvalidate_ok (ps : Kobj) (s : Machine) :
    wp (atInvalidate a ps) (fun _ s' => s' = s ∧ (s.obj ps).ps.psAt ≠ some a ∨
      (s.obj ps).ps.psAt = some a ∧ ∃ pm, Wiped pm ∧ s' = s.setPgmap a pm) .any s := by
  simp only [atInvalidate, wp_rules, wp_derefAs, wp_processorSched, implies_true, and_true]
  refine fun _ _ _ _ _ => ⟨fun hps _ => ?_, fun hps => .inl ⟨trivial, hps⟩⟩
  refine wp_post (atInvalidateRange_ok 0 (ulim - pgsize) s) fun _ s' ht => ?_
  obtain ⟨pm, -, hs'⟩ := ht
  exact .inr ⟨hps, _, wiped_invalidate pm, hs'⟩

/-- The pagemap of `a` is as in `s`, or holds nothing any more if one of `l` uses it. -/
structure Swept (a : Kobj) (l : List Kobj) (s s' : Machine) : Prop where
  psAt : ∀ p, (s'.obj p).ps.psAt = (s.obj p).ps.psAt
  kept : (∀ ps ∈ l, (s.obj ps).ps.psAt ≠ some a) → s' = s
  wiped : (∃ ps ∈ l, (s.obj ps).ps.psAt = some a) →
    ∃ pm, (s'.obj a).tree.atPgmap = some pm ∧ Wiped pm

lemma forEach_atInvalidate_ok : ∀ (l : List Kobj) (s : Machine),
    wp (forEach (atInvalidate a) l) (fun _ s' => Swept a l s s') .any s
  | [], _ => ⟨fun _ => rfl, fun _ => rfl, by simp⟩
  | ps :: l, s => by
    simp only [forEach, wp_bind]
    refine wp_post (atInvalidate_ok ps s) fun _ t ht => ?_
    refine wp_post (forEach_atInvalidate_ok l t) fun _ s' hs' => ?_
    rcases ht with ⟨rfl, hps⟩ | ⟨hps, pm, hpm, rfl⟩
    · refine ⟨hs'.psAt, fun h => hs'.kept fun q hq => h q (List.mem_cons_of_mem _ hq), ?_⟩
      rintro ⟨q, hq, hqa⟩
      exact hs'.wiped ⟨q, (List.mem_cons.mp hq).resolve_left fun h => hps (h ▸ hqa), hqa⟩
    · refine ⟨fun p => (hs'.psAt p).trans (modObj_eq (g := fun o => o.ps.psAt) rfl p),
        fun h => (h ps List.mem_cons_self hps).elim, fun _ => ?_⟩
      -- the pagemap is empty now, and the rest of the list leaves it so or empties it again
      by_cases hl : ∃ q ∈ l, ((s.setPgmap a pm).obj q).ps.psAt = some a
      · exact hs'.wiped hl
      · rw [hs'.kept fun q hq hqa => hl ⟨q, hq, hqa⟩]
        exact ⟨pm, by simp [Machine.setPgmap], hpm⟩

/-! ### The whole call -/

lemma atFromUser_ok {ents : List UAddressMapping} (h : atFromUser a ents s = (.ok (), s')) :
    ∃ t, SameMaps s t ∧ Swept a (t.obj a).tree.atPsList t s' := by
  have hwp : wp (atFromUser a ents) (fun _ s' => ∃ t, SameMaps s t ∧
      Swept a (t.obj a).tree.atPsList t s') .any s := by
    have hrest : ∀ u, SameMaps s u → wp (do
        atClearMappings a
        let n ← atNents a
        modTree a fun t => { t with
          uaddrmap := fun i => if i < n then newSlots ents i else t.uaddrmap i }
        let o ← derefAs .addressTree a
        forEach (atInvalidate a) o.tree.atPsList) (fun _ s' => ∃ t, SameMaps s t ∧
          Swept a (t.obj a).tree.atPsList t s') .any u := fun u hu => by
      simp only [wp_bind, wp_modTree, wp_derefAs, implies_true, and_true]
      refine wp_post (Same.ok hu (atClearMappings_maps a)) fun _ u hu => ?_
      refine wp_post (Same.ok hu (atNents_quiet a)) fun n u hu _ _ => ?_
      exact wp_post (forEach_atInvalidate_ok _ _) fun _ s' hs' =>
        ⟨_, hu.trans (.modObj rfl rfl), hs'⟩
    simp only [atFromUser]
    rw [wp_bind]
    refine wp_post (Same.ok (.refl s) (atNents_quiet a)) fun n u (hu : SameMaps s u) => ?_
    rw [wp_ite]
    refine ⟨fun _ => ?_, fun _ => hrest u hu⟩
    rw [wp_bind]
    exact wp_post (Same.ok hu (atResize_maps a _)) fun _ v hv => hrest v hv
  have hend := wp_ok hwp h
  exact hend

/-- A segment is mapped by an interior tree that the tree of the boot processor maps, and a
page of it is used. -/
def interiorRun : List Event := [
  ⟨0, .syscall (.segmentAlloc 1 4096 0)⟩,
  ⟨0, .syscall (.atAlloc 1 1 0)⟩,
  ⟨0, .syscall (.atSetSlot ⟨1, 5⟩
    { type := addressMappingSegment, object := ⟨1, 4⟩, flags := 6, numPages := 1 })⟩,
  ⟨0, .syscall (.atSetSlot ⟨1, 3⟩
    { type := addressMappingInterior, object := ⟨1, 5⟩, flags := 6, va := 0x40000000 })⟩,
  ⟨0, .fault 2 0x40000000 6⟩]

end Corey.Kern
