import Corey.Kern.FaultPath

/-!
Root and interior address trees (`at_alloc`, `page_map_alloc`, `processor_vector`).

The argument that says whether a new tree is interior is cut to a `char`, and then to one bit
wherever it is stored, but the pagemap is cleared if the `char` is not zero. A processor may be
vectored to any address tree, root or interior.
-/

namespace Corey.Kern

open Corey.Comp Corey.Mem

variable {s s' t : Machine} {interior pid : ℕ} {a sh : Kobj}

def Pagemap.IsEmpty (pm : Pagemap) : Prop :=
  pm.root = emptyTable ∧ pm.inner = emptyTable ∧ ∀ i, pm.kern i = none

/-- The kernel half is that of a boot pagemap. -/
def Pagemap.MapsKernel (pm : Pagemap) : Prop := ∃ cpu, pm.kern = bootpml4 cpu

lemma Pagemap.IsEmpty.not_mapsKernel {pm : Pagemap} (h : pm.IsEmpty) : ¬ pm.MapsKernel := by
  rintro ⟨cpu, hk⟩
  have := h.2.2 256
  simp [hk, bootpml4] at this

/-- A tree, made on `cpu`, is a root with the kernel half of the boot pagemap, or interior and
empty; its page says the same. -/
def AddressTree.RootOrInterior (t : AddressTree) (cpu : ℕ) : Prop :=
  ∃ pm, t.atPgmap = some pm ∧ (t.atInterior = false ↔ pm.int = false) ∧
    (t.atInterior = false → pm.kern = bootpml4 cpu) ∧ (t.atInterior = true → pm.IsEmpty)

/-- The pagemap `at_alloc` gives a tree, in page `p`. -/
def madePagemap (interior cpu : ℕ) (p : Ppn) : Pagemap :=
  let pm : Pagemap := { page := p, int := interior % 2 = 1, kern := bootpml4 cpu }
  if interior % 256 ≠ 0 then pm.clear else pm

/-! ### Allocation -/

lemma newPagemap_made (a : Kobj) (interior pid : ℕ) (s : Machine) :
    wp (newPagemap a interior pid) (fun _ t => ∃ p, t.obj = Function.update s.obj a
      { s.obj a with tree := { (s.obj a).tree with
        atPgmap := some (madePagemap interior s.mem.cpu p), atInterior := interior % 2 = 1
        atMapList := [], atPsList := [] } }) .any s := by
  simp only [newPagemap, pageMapAlloc, wp_rules, wp_onForest, wp_archCpu, wp_modTree]
  refine wp_weaken (wp_takePage_cpu pid s.forest) fun p f hf => ⟨p, ?_⟩
  have hcpu : f.mem.cpu = s.mem.cpu := hf
  simp only [Machine.modObj, Machine.mem, madePagemap, hcpu]

lemma atAlloc_made (interior pid : ℕ) (s : Machine) :
    wp (atAlloc interior pid) (fun a t => a = s.born ∧ (t.obj a).live = true ∧
      (t.obj a).koType = .addressTree ∧ (t.obj a).tree.atInterior = decide (interior % 2 = 1) ∧
      ∃ p, (t.obj a).tree.atPgmap = some (madePagemap interior s.mem.cpu p)) .any s := by
  simp only [atAlloc, wp_bind]
  refine wp_weaken (kobjectAlloc_bears _ pid s) fun a u ht => ?_
  obtain ⟨ha, hu⟩ := ht
  subst ha
  refine wp_post (newPagemap_made _ interior pid u) fun _ t ht => ?_
  obtain ⟨p, ht⟩ := ht
  simp only [wp_onArrays]
  refine wp_any_of fun _ w => wp_any_of fun _ w' => ?_
  obtain ⟨id, q, hobj⟩ := hu.obj
  simp [ht, hobj, hu.cpu]

/-! ### What follows leaves the tree alone -/

lemma onSharemap_tables {α : Type} (ps : Kobj) (m : MapM TreeId Kobj α) :
    Steps SameTables (onSharemap ps m) := .of_rel fun s _ => by
  have hobj : ∀ r : Map Kobj × Forest TreeId, SameTables s (Machine.modObj ps
      (fun o => { o with ps := { o.ps with psSharemap := { o.ps.psSharemap with map := r.1 } } })
      { s with forest := r.2 }) := fun r =>
    have h : SameTables { s with forest := r.2 } _ := .modObj rfl rfl
    ⟨h.obj, rfl⟩
  exact hobj _

lemma shareBlobFree_tables (sh : Kobj) (b : Blob) : Steps SameTables (shareBlobFree sh b) :=
  .bind (.of_quiet fun _ => rfl) fun _ => .derefAs fun _ =>
    tables_of_looks (modShare_looks _ _)

lemma shareImportObj_tables (sh ko : Kobj) : Steps SameTables (shareImportObj sh ko) :=
  have hinfo : ∀ b i, Steps SameTables (setInfo sh b i) := fun _ _ =>
    tables_of_looks (modShare_looks _ _)
  .deref fun _ => .derefAs fun _ => .ite (.raise _) <|
    .bind (tables_of_looks (shareBlobAlloc_looks _)) fun _ => .seq (hinfo _ _) <|
      .bind (.attempt (tables_of_looks (onShareMap_looks _ _))) fun
        | .ok _ => .bind (getInfo_quiet _ _) fun _ =>
            .seq (hinfo _ _) (shareBlobFree_tables _ _)
        | .error _ => .seq (.onErr (tables_of_looks (onShareMap_looks _ _))
            (shareBlobFree_tables _ _)) (kobjectIncref_tables _)

lemma processorImportObj_tables (ps : Kobj) (sh : ℕ) (ko : Kobj) :
    Steps SameTables (processorImportObj ps sh ko) :=
  .bind (tables_of_looks (sharemapGet_looks _ _)) fun _ => shareImportObj_tables _ _

lemma sharemapAdd_tables (ps sh : Kobj) : Steps SameTables (sharemapAdd ps sh) :=
  .derefAs fun _ => .derefAs fun _ => .ite (.raise _) <|
    .seq (onSharemap_tables _ _) (kobjectIncref_tables _)

lemma processorStart_trees (ps a : Kobj) (uc : UContext) :
    Steps SameTrees (processorStart ps a uc) :=
  .seq (.derefAs fun _ =>
      .change fun _ => .modObj rfl rfl) <|
    .seq (.change fun _ => .modObj rfl rfl) <|
      .bind (.of_quiet fun _ => rfl) fun _ => .change fun _ => .of_objects rfl rfl

lemma processorVector_trees (ps : Kobj) (uc : UContext) :
    Steps SameTrees (processorVector ps uc) :=
  have ht : ∀ {α : Type} {m : KM α}, Steps SameTables m → Steps SameTrees m := fun h =>
    h.mono fun _ _ => .of_tables
  .derefAs fun _ => .ite (.raise _) <|
    .seq (.forEach (fun _ => ht (.bind theProcessor_quiet fun _ =>
      .bind (tables_of_looks (processorCoObj_looks _ _ _)) fun _ => sharemapAdd_tables _ _)) _) <|
      .bind (ht (tables_of_looks (processorCoObj_looks _ _ _))) fun _ => .seq (.require _)
        (processorStart_trees _ _ _)

/-- The tree that a successful call returns, as it is then. -/
structure Made (interior cpu : ℕ) (o : Kobject) : Prop where
  live : o.live = true
  koType : o.koType = .addressTree
  atInterior : o.tree.atInterior = decide (interior % 2 = 1)
  atPgmap : ∃ p, o.tree.atPgmap = some (madePagemap interior cpu p)

lemma sysAtAlloc_made {src : Kobj} {sh id : ℕ}
    (h : sysAtAlloc src sh interior pid s = (.ok id, s')) :
    Made interior s.mem.cpu (s'.obj s.born) ∧ (s'.obj s.born).koId = id := by
  have hwp : wp (sysAtAlloc src sh interior pid) (fun id s' =>
      Made interior s.mem.cpu (s'.obj s.born) ∧ (s'.obj s.born).koId = id) .any s := by
    simp only [sysAtAlloc, wp_bind]
    refine wp_post (atAlloc_made interior _ s) fun a t ht => ?_
    obtain ⟨ha, hlive, htype, hint, p, hmap⟩ := ht
    subst ha
    refine wp_weaken (Same.after (.refl t) (processorImportObj_tables src sh s.born))
      fun _ u hu => ?_
    have htrees := SameTrees.of_tables hu
    simp only [idOf, wp_rules, wp_deref]
    refine ⟨fun _ => ⟨⟨?_, ?_, ?_, p, ?_⟩, trivial⟩, fun _ => trivial⟩
    · exact (congrArg (·.1.1) (hu.obj _)).trans hlive
    · exact (congrArg (·.1.2.2) (hu.obj _)).trans htype
    · exact (htrees.user.atInterior _).trans hint
    · exact (htrees.atPgmap _).trans hmap
  have hend := wp_ok hwp h
  exact hend

namespace Made

variable {o : Kobject} {cpu : ℕ}

lemma rootOrInterior_iff (h : Made interior cpu o) :
    o.tree.RootOrInterior cpu ↔ interior % 256 = 0 ∨ interior % 2 = 1 := by
  obtain ⟨p, hp⟩ := h.atPgmap
  simp only [AddressTree.RootOrInterior, hp, h.atInterior, Option.some.injEq, exists_eq_left',
    madePagemap, decide_eq_false_iff_not, decide_eq_true_eq]
  by_cases h256 : interior % 256 = 0
  · have h2 : ¬ interior % 2 = 1 := by omega
    simp [h256, h2]
  · by_cases h2 : interior % 2 = 1
    · simp [h256, h2, Pagemap.clear, Pagemap.IsEmpty]
    · simp only [h256, h2, ne_eq, not_false_eq_true, if_true, Pagemap.clear, decide_false,
        forall_const, or_self, iff_false]
      -- a root whose kernel half has been cleared
      rintro ⟨-, hk, -⟩
      have := congrFun hk 256
      simp [bootpml4] at this

lemma mapsKernel_iff (h : Made interior cpu o) :
    (∃ pm, o.tree.atPgmap = some pm ∧ pm.MapsKernel) ↔ interior % 256 = 0 := by
  obtain ⟨p, hp⟩ := h.atPgmap
  simp only [hp, Option.some.injEq, exists_eq_left', madePagemap]
  by_cases h256 : interior % 256 = 0
  · simp only [h256, ne_eq, not_true_eq_false, if_false, iff_true]
    exact ⟨cpu, rfl⟩
  · simp only [h256, ne_eq, not_false_eq_true, if_true, iff_false]
    exact Pagemap.IsEmpty.not_mapsKernel ⟨rfl, rfl, fun _ => rfl⟩

end Made

/-! ### A processor for the tree -/

def oneEntry {V : Type} (key : ℕ) (v : V) : Hashtable V :=
  { capacity := 1, size := 1, ent := fun _ => ⟨key, some v⟩ }

/-- An idle processor that knows one share, under the id 1. -/
def idleProcessor (sh : Kobj) : Kobject where
  live := true
  koType := .processor
  ps := { psSharemap := { map := { table := oneEntry 1 sh } } }

/-- A share that holds one object, under the id 2. -/
def shareWith (ko : Kobj) : Kobject where
  live := true
  koId := 1
  koType := .share
  sh :=
    { shKobjectMap := { table := oneEntry 2 ⟨0, 0⟩ }
      info := fun _ => { siKo := ko }
      free := fun _ => [⟨0, 1⟩] }

/-- A machine with such a processor, such a share and the object `o`. -/
def machineWith (a : Kobj) (o : Kobject) : Machine :=
  { bareMachine 0 1 0 with
    obj := fun p =>
      if p = a then o else if p = a + 1 then idleProcessor (a + 2) else shareWith a }

lemma onSharemap_found {ps : Kobj} {id : ℕ} (h : hashGet id (s.obj ps).ps.psSharemap.map.table =
      (.ok sh, (s.obj ps).ps.psSharemap.map.table)) :
    onSharemap ps (mapGet id) s = (.ok sh, s) := by
  simp only [onSharemap, mapGet, onTable, Comp.zoom, h, Machine.modObj]
  simp

lemma onShareMap_found {b : Blob} {id : ℕ} (h : hashGet id (s.obj sh).sh.shKobjectMap.table =
      (.ok b, (s.obj sh).sh.shKobjectMap.table)) : onShareMap sh (mapGet id) s = (.ok b, s) := by
  simp only [onShareMap, mapGet, onTable, Comp.zoom, h, Machine.modObj]
  simp

lemma processorStart_attached {ps : Kobj} {uc : UContext} (hl : (s.obj a).live = true)
    (ht : (s.obj a).koType = .addressTree) :
    wp (processorStart ps a uc) (fun _ t => (t.obj ps).ps.psAt = some a) .never s := by
  simp only [processorStart, atAttach, wp_rules, wp_derefAs, wp_modTree, wp_modProcessor, wp_getObj]
  exact ⟨fun _ _ => by rw [modObj_self], fun _ h => (h ht).elim, fun h => by simp [hl] at h⟩

lemma machineWith_vectors {o : Kobject} (hl : o.live = true) (ht : o.koType = .addressTree) :
    wp (processorVector (a + 1) { ucAt := ⟨1, 2⟩ })
      (fun _ t => (t.obj (a + 1)).ps.psAt = some a) .never (machineWith a o) := by
  have hps : (machineWith a o).obj (a + 1) = idleProcessor (a + 2) := by simp [machineWith]
  have hsh : (machineWith a o).obj (a + 2) = shareWith a := by simp [machineWith]
  have ha : (machineWith a o).obj a = o := by simp [machineWith]
  have hget : onSharemap (a + 1) (mapGet 1) (machineWith a o) = (.ok (a + 2), machineWith a o) :=
    onSharemap_found (by rw [hps]; rfl)
  have hfind : onShareMap (a + 2) (mapGet 2) (machineWith a o) = (.ok ⟨0, 0⟩, machineWith a o) :=
    onShareMap_found (by rw [hsh]; rfl)
  -- the processor finds the share, and the share the tree
  simp only [processorVector, processorCoObj, sharemapCoObj, sharemapGet, wp_bind,
    wp_derefAs_eq (t := .processor) hps rfl rfl]
  rw [if_neg (by simp [idleProcessor])]
  simp only [UContext.shares, List.take_nil, List.takeWhile_nil, Comp.forEach, wp_bind, wp_pure,
    wp_derefAs_eq (t := .processor) hps rfl rfl]
  refine wp_of_ok hget ?_
  rw [if_neg (by decide)]
  simp only [shareCoObj, getInfo, wp_bind, wp_derefAs_eq (t := .share) hsh rfl rfl]
  refine wp_of_ok hfind ?_
  have hko : ((shareWith a).sh.info ⟨0, 0⟩).siKo = a := rfl
  simp only [wp_pure, wp_derefAs_eq (t := .share) hsh rfl rfl, wp_deref, hko, ha, hl, ht]
  refine ⟨fun _ => ?_, by simp⟩
  rw [if_neg (by decide)]
  simp only [shareBlobAlloc, wp_bind, wp_archCpu, wp_derefAs_eq (t := .share) hsh rfl rfl]
  rw [if_neg (by simp [shareWith])]
  simp only [setInfo, modShare, pushAction, wp_bind, wp_archCpu,
    wp_derefAs_eq (t := .share) hsh rfl rfl, wp_need, wp_change, wp_pure]
  refine ⟨fun b _ => ?_, by simp [shareWith]⟩
  rw [wp_derefAs_eq (t := .share) (by rw [modObj_self, modObj_self, hsh]) rfl rfl]
  have hne : a ≠ a + 2 := by simp
  have hsame : ∀ f g, (((machineWith a o).modObj (a + 2) f).modObj (a + 2) g).obj a = o :=
    fun f g => by rw [modObj_of_ne hne, modObj_of_ne hne, ha]
  rw [wp_require]
  refine ⟨fun _ => processorStart_attached ?_ ?_, fun h => (h (by decide)).elim⟩
  · rw [hsame]
    exact hl
  · rw [hsame]
    exact ht

/-! ### The two kinds of trees -/

/-- Wherever the tree `a` is as `o` says, a processor that has been vectored to it has a pagemap
that maps the kernel. -/
def KeepsKernel (a : Kobj) (o : Kobject) : Prop :=
  ∀ t ps uc t', t.obj a = o → processorVector ps uc t = (.ok (), t') →
    (t'.obj ps).ps.psAt = some a →
      ∃ pm, (t'.obj a).tree.atPgmap = some pm ∧ pm.MapsKernel

lemma keepsKernel_iff {o : Kobject} (hl : o.live = true) (ht : o.koType = .addressTree) :
    KeepsKernel a o ↔ ∃ pm, o.tree.atPgmap = some pm ∧ pm.MapsKernel := by
  have hkeep : ∀ {t ps uc t'}, t.obj a = o → processorVector ps uc t = (.ok (), t') →
      (t'.obj a).tree.atPgmap = o.tree.atPgmap := by
    intro t ps uc t' hobj hv
    have htrees : SameTrees t t' := Steps.keeps (I := SameTrees t) (fun _ _ h' h => h.trans h')
      ((processorVector_trees ps uc).of_ok hv) (.refl t)
    rw [htrees.atPgmap, hobj]
  constructor
  · intro h
    obtain ⟨_, t', hv, hat⟩ := ok_of_never (machineWith_vectors (a := a) hl ht)
    have hobj : (machineWith a o).obj a = o := by simp [machineWith]
    rw [← hkeep hobj hv]
    exact h _ _ _ t' hobj hv hat
  · intro h t ps uc t' hobj hv _
    rwa [hkeep hobj hv]

/-- **Root or interior.** The flags of a new tree and of its page agree for every argument; the
pagemap is what the flags say exactly if the `char` the argument is cut to is zero or odd; and
whoever may be vectored to the tree keeps the kernel mapped exactly if that `char` is zero. -/
theorem address_tree_root_or_interior_iff {src : Kobj} {sh id : ℕ}
    (h : sysAtAlloc src sh interior pid s = (.ok id, s')) :
    (s'.obj s.born).koId = id ∧
    ((s'.obj s.born).tree.RootOrInterior s.mem.cpu ↔ interior % 256 = 0 ∨ interior % 2 = 1) ∧
    ((s'.obj s.born).tree.RootOrInterior s.mem.cpu ∧ KeepsKernel s.born (s'.obj s.born) ↔
      interior % 256 = 0) := by
  obtain ⟨hmade, hid⟩ := sysAtAlloc_made h
  refine ⟨hid, hmade.rootOrInterior_iff, ?_⟩
  rw [hmade.rootOrInterior_iff, keepsKernel_iff hmade.live hmade.koType, hmade.mapsKernel_iff]
  tauto

/-- CPU 0 makes a tree with this argument and a processor, which it vectors to the tree. -/
def vectorToNew (interior : ℕ) : List Event :=
  [⟨0, .syscall (.atAlloc 1 interior 0)⟩, ⟨0, .syscall (.processorAlloc 1 1)⟩,
    ⟨0, .syscall (.processorVector ⟨1, 5⟩ { ucAt := ⟨1, 4⟩, ucShare := [⟨1, 1⟩] })⟩]

/-- The flag of the tree, that of its page, an entry of the kernel half, and what CPU 1 runs. -/
def Machine.newTree (s : Machine) : Bool × Option (Bool × Option KernTable) × Option Kobj ×
    Option Kobj :=
  ((s.obj 3).tree.atInterior, (s.obj 3).tree.atPgmap.map fun pm => (pm.int, pm.kern 256),
    s.processors 1, (s.obj 4).ps.psAt)

/-- With the argument 2 a root is made that does not map the kernel, and with the argument 1 an
interior tree; both can be run in. -/
theorem current_pagemap_without_kernel :
    (∃ s, kernel.Reachable s ∧ s.newTree = (false, some (false, none), some 4, some 3)) ∧
      ∃ s, kernel.Reachable s ∧ s.newTree = (true, some (true, none), some 4, some 3) :=
  ⟨reachable_of_bootRun 40 2 (vectorToNew 2) (by decide +kernel),
    reachable_of_bootRun 40 2 (vectorToNew 1) (by decide +kernel)⟩

/-- The boot processor makes a root. -/
theorem address_tree_root_or_interior_iff_boot :
    ∃ s id s', kernel.Reachable s ∧ sysAtAlloc 1 1 0 0 s = (.ok id, s') ∧
      (s'.obj s.born).tree.RootOrInterior s.mem.cpu ∧ KeepsKernel s.born (s'.obj s.born) := by
  obtain ⟨s, hs, hx⟩ := reachable_of_bootRun 40 1 []
    (P := fun s => ((sysAtAlloc 1 1 0 0).result s).isSome) (by decide +kernel)
  obtain ⟨⟨id, s'⟩, hr⟩ := Option.isSome_iff_exists.mp hx
  have hcall := result_eq_some.mp hr
  exact ⟨s, id, s', hs, hcall, (address_tree_root_or_interior_iff hcall).2.2.mpr rfl⟩

end Corey.Kern
