import Corey.Kern.PageTables
import Corey.Kern.Syscall
import Corey.Mem.Asked

/-!
The ids of CPUs that are kept in the machine.

The id of the CPU next to which the pages of an object are to be is kept in the object, in its
page trees, arrays and maps, and each page they need later on is allocated with it. What works on
a part of the machine keeps the ids there, and asks for pages with no others.
-/

namespace Corey.Kern

open Function Corey.Comp Corey.Mem Forest
open Corey.Mem.Forest (ForestM)

variable {n : ℕ} {ok : ℕ → Prop} {base : List ℕ} {pid : ℕ} {α ι β : Type} {s : Machine} {p : Kobj}
  {f : Kobject → Kobject}

/-! ### Arrays -/

/-- The ids of arrays and page trees have the property. -/
def ArraysAsk (ok : ℕ → Prop) (base : List ℕ) (s : (ι → Darray) × Forest ι) : Prop :=
  (∀ t, ok (s.1 t).daPid) ∧ s.2.Asks ok base

lemma sharedArrays_asks {m : ForestM ι α} (h : Stays (Forest.Asks ok base) m) :
    Stays (ArraysAsk ok base) (shared m : DaM ι α) :=
  .part h (fun _ h => h.2) fun _ _ h h' => ⟨h.1, h'⟩

lemma head_asks (t : ι) : Gives (.all (ArraysAsk ok base)) (ArraysAsk ok base)
    (fun a _ => ok a.daPid) (head t) :=
  .bind_of .state fun _ _ hs hst => ⟨hs, hst ▸ hs.1 t⟩

section

variable [DecidableEq ι]

lemma setHead_asks {a : Darray} (h : ok pid) (ha : a.daPid = pid) (t : ι) :
    Stays (ArraysAsk ok base) (setHead t a) := .change fun s hs =>
  ⟨(forall_update_iff s.1 fun _ a => ok a.daPid).mpr ⟨ha ▸ h, fun u _ => hs.1 u⟩, hs.2⟩

lemma darrayInit_asks (h : ok pid) (t : ι) (size : ℕ) (demand : Bool) :
    Stays (ArraysAsk ok base) (darrayInit t size demand pid) :=
  .seq (sharedArrays_asks (initTree_asks h t demand)) (setHead_asks h rfl t)

lemma darrayFree_asks (t : ι) : Stays (ArraysAsk ok base) (darrayFree t) :=
  sharedArrays_asks (free_asks t)

lemma darrayGet_asks (t : ι) (i : ℕ) (mode : PageSharingMode) :
    Stays (ArraysAsk ok base) (darrayGet t i mode) :=
  .bind (head_asks t) fun _ => .ite (.raise _) <|
    .bind (sharedArrays_asks (getPage_asks t _ mode)) fun _ => .done _

lemma dropPage_asks (t : ι) (i : ℕ) : Stays (ArraysAsk ok base) (dropPage t i) :=
  .bind (sharedArrays_asks (putNull_asks t i)).attempt fun
    | .ok _ => .done _
    | .error _ => .halt _

lemma putNewPage_asks (h : ok pid) (t : ι) (i : ℕ) :
    Stays (Forest.Asks ok base) (putNewPage t pid i) :=
  .bind (takePage_asks h) fun p =>
    .bind (.onErr (putPage_asks t i p) (givePage_asks p)) fun _ => .done _

lemma growPage_asks (h : ok pid) (t : ι) (curnpg : ℕ) (clear : Bool) (i : ℕ) :
    Stays (ArraysAsk ok base) (growPage t pid curnpg clear i) :=
  .bind (.onErr (sharedArrays_asks (putNewPage_asks h t i)) (.loop (dropPage_asks t) _ _)) fun _ =>
    .ite (sharedArrays_asks (onMem_asks
      (.seq (.change fun _ h => h) (.change fun _ h => h)))) (.done _)

lemma darraySetNent_asks (t : ι) (n : ℕ) (clear : Bool) :
    Stays (ArraysAsk ok base) (darraySetNent t n clear) :=
  .bind_val (head_asks t) fun _ ha => .seq (.loop (dropPage_asks t) _ _) <|
    .seq (.bind_val (head_asks t) fun _ hb => .ite (.loop (growPage_asks hb t _ _) _ _) (.done _))
      (setHead_asks ha (by rfl) t)

lemma darrayGrowNent_asks (t : ι) (n : ℕ) : Stays (ArraysAsk ok base) (darrayGrowNent t n) :=
  .bind (head_asks t) fun _ => .ite (darraySetNent_asks t n true) (.done _)

lemma darrayCopy_asks (src dst : ι) (mode : PageSharingMode) :
    Stays (ArraysAsk ok base) (darrayCopy src dst mode) :=
  .bind (head_asks src) fun _ => .bind_val (head_asks dst) fun _ hb => .ite (.raise _) <|
    .seq (sharedArrays_asks (copy_asks src dst mode)) (setHead_asks hb (by rfl) dst)

end

/-! ### Maps -/

section

variable {V : Type}

/-- The ids of a map and of the page trees have the property. -/
def MapAsks (ok : ℕ → Prop) (base : List ℕ) (s : Map V × Forest ι) : Prop :=
  ok s.1.pid ∧ s.2.Asks ok base

lemma sharedMap_asks {m : ForestM ι α} (h : Stays (Forest.Asks ok base) m) :
    Stays (MapAsks ok base) (shared m : MapM ι V α) :=
  .part h (fun _ h => h.2) fun _ _ h h' => ⟨h.1, h'⟩

lemma onTable_asks (m : HtM V α) : Stays (MapAsks ok base) (onTable m : MapM ι V α) :=
  .part (J := fun _ => True) (fun _ _ => wp_of_forall (fun _ _ => ⟨trivial, trivial⟩)
    (fun _ _ => trivial) fun _ _ => trivial) (fun _ _ => trivial) fun _ _ h _ => h

variable [DecidableEq ι]

lemma putTablePage_asks (h : ok pid) (next : ι) (i : ℕ) :
    Stays (Forest.Asks ok base) (putTablePage next pid i) :=
  .bind (takePage_asks h).attempt fun
    | .error _ => .halt _
    | .ok va => .seq (putPage_asks next i va) (.done _)

lemma rehash_asks (back : Bool → ι) : Stays (MapAsks ok base) (rehash back : MapM ι V Unit) := by
  refine .bind_of .state fun s t ht hst => ?_
  subst hst
  have hpage : ∀ i, Stays (MapAsks ok base)
      (backTablePage (back !s.1.cur) s.1.pid i : MapM ι V Unit) := fun i =>
    .bind (sharedMap_asks (putTablePage_asks ht.1 _ i)) fun _ =>
      sharedMap_asks (onMem_asks (.change fun _ h => h))
  refine (?_ : Stays (MapAsks ok base) _) s ht
  exact .seq (sharedMap_asks (initTree_asks ht.1 _ _)) <| .seq (.onErr (.loop hpage _ _)
    (sharedMap_asks (free_asks _))) <| .seq (onTable_asks _) <| .seq (onTable_asks _) <|
    .seq (sharedMap_asks (free_asks _)) (.change fun _ h => h)

lemma mapPut_asks (back : Bool → ι) (key : ℕ) (v : V) :
    Stays (MapAsks ok base) (mapPut back key v) :=
  .seq (.check _) <| .bind .state fun _ =>
    .seq (.ite (.bind (rehash_asks back).attempt fun _ => .done _) (.done _)) (onTable_asks _)

lemma mapFree_asks (back : Bool → ι) : Stays (MapAsks ok base) (mapFree back : MapM ι V Unit) :=
  .bind .state fun _ => sharedMap_asks (free_asks _)

end

/-! ### Page tables -/

/-- The state beside the page trees does not matter. -/
abbrev AsksIn (ok : ℕ → Prop) (base : List ℕ) (s : α × Forest ι) : Prop :=
  True ∧ s.2.Asks ok base

lemma sharedIn_asks {m : ForestM ι α} (h : Stays (Forest.Asks ok base) m) :
    Stays (AsksIn ok base : β × Forest ι → Prop) (shared m) :=
  .part h (fun _ h => h.2) fun _ _ _ h => ⟨trivial, h⟩

lemma focusIn_asks {γ : Type} {r : Ptr β γ} {m : Comp Errno (γ × Forest ι) α}
    (h : Stays (AsksIn ok base) m) : Stays (AsksIn ok base) (focus r m) :=
  .focus (I := fun _ => True) (J := fun _ => True) h (fun _ _ => trivial) fun _ _ _ _ => trivial

lemma ensureTable_asks (h : ok pid) {l : ℕ} (i : ℕ) :
    Stays (AsksIn ok base) (ensureTable pid i : PmM ι (l + 1) Unit) :=
  .bind .state fun _ => .ite (.bind (sharedIn_asks (takePage_asks h)) fun _ =>
    .seq (sharedIn_asks (onMem_asks (.change fun _ h => h))) (.change fun _ h => h)) (.done _)

lemma pgdirWalk_asks (h : ok pid) (va : ℕ) :
    ∀ l, Stays (AsksIn ok base) (pgdirWalk pid va l : PmM ι l (Option Kobj))
  | 0 => .done _
  | l + 1 => .bind .state fun s => by
    cases (s.1 (pdx (l + 1) va)).link? with
    | some x => exact .done _
    | none => exact .seq (ensureTable_asks h _) (focusIn_asks (pgdirWalk_asks h va l))

lemma asArchPutinterior_asks (h : ok pid) (va : ℕ) (a : Kobj) (p : Ppn) :
    Stays (AsksIn ok base) (asArchPutinterior pid va a p : PmM ι 3 Unit) :=
  .seq (.check _) <| .seq (ensureTable_asks h _) <| focusIn_asks <| .bind .state fun _ =>
    .ite (.change fun _ h => h) (.check _)

lemma asArchPutinteriorLow_asks (h : ok pid) (va : ℕ) (a : Kobj) (p : Ppn) :
    Stays (AsksIn ok base) (asArchPutinteriorLow pid va a p : PmM ι 1 Unit) :=
  .seq (.check _) <| .seq (ensureTable_asks h _) <| focusIn_asks <| .bind .state fun s => by
    cases (s.1 (pdx 2 va)).pte? with
    | none => exact .change fun _ h => h
    | some e => exact .check _

lemma pageMapFreeEnt_asks (live : Kobj → Bool) :
    ∀ {l : ℕ} (e : PmEnt l), Stays (Forest.Asks ok base) (pageMapFreeEnt live e : ForestM ι Unit)
  | _, .none => .done _
  | _, .map _ => .done _
  | _, .link _ _ => .ite (.done _) (.halt _)
  | _, .table p ent => .seq (.loop (fun i => pageMapFreeEnt_asks live (ent i)) _ _)
      (givePage_asks p)

lemma freeDataAsTable_asked (p : Ppn) : Stays (Asked ok base) (freeDataAsTable p) := by
  intro m hm
  have hfree : Stays (Asked ok base) (do pageZero p; pageFree p) :=
    .seq (.change fun _ h => h) (pageFree_asked p)
  simp only [freeDataAsTable, wp_rules]
  exact ⟨fun _ => hm, fun _ => hfree m hm⟩

set_option maxRecDepth 1000 in
lemma freeInnerEnt_asks (live : Kobj → Bool) (e : PmEnt 1) :
    Stays (Forest.Asks ok base) (freeInnerEnt live e : ForestM ι Unit) := by
  cases e with
  | none => exact .done _
  | table p ent =>
    refine .seq (.loop (fun i => ?_) _ _) (Forest.givePage_asks p)
    cases ent i with
    | none => exact .done _
    | map e =>
      dsimp only
      cases e.src with
      | page _ _ => exact Forest.onMem_asks (freeDataAsTable_asked _)
      | root _ => exact .ite (.done _) (.halt _)

lemma pageMapFree_asks (live : Kobj → Bool) (a : Kobj) (pm : Pagemap) :
    Stays (Forest.Asks ok base) (pageMapFree live a pm : ForestM ι Unit) :=
  have htables : Stays (Forest.Asks ok base) (freeTables (others live a) pm : ForestM ι Unit) := by
    rw [freeTables]
    split
    · exact .loop (fun _ => freeInnerEnt_asks _ _) _ _
    · exact .loop (fun _ => pageMapFreeEnt_asks _ _) _ _
  .seq htables (givePage_asks _)

/-! ### The machine -/

structure Kobject.PidsOk (ok : ℕ → Prop) (o : Kobject) : Prop where
  koPid : ok o.koPid
  share : ok o.sh.shKobjectMap.pid
  processor : ok o.ps.psSharemap.map.pid

/-- Every id that is kept has the property, and so have those of the `n` CPUs. -/
structure Machine.Asks (n : ℕ) (ok : ℕ → Prop) (base : List ℕ) (s : Machine) : Prop where
  forest : s.forest.Asks ok base
  darray : ∀ t, ok (s.darray t).daPid
  obj : ∀ p, (s.obj p).PidsOk ok
  ncpu : s.ncpu = n
  cpus : ∀ pid < n, ok pid
  zero : ok 0

abbrev Asking (n : ℕ) (ok : ℕ → Prop) (base : List ℕ) (m : KM α) : Prop :=
  Stays (Machine.Asks n ok base) m

lemma Machine.Asks.modObj (h : s.Asks n ok base)
    (hf : (s.obj p).PidsOk ok → (f (s.obj p)).PidsOk ok) : (s.modObj p f).Asks n ok base :=
  ⟨h.forest, h.darray, forall_modObj (P := fun _ => Kobject.PidsOk ok) (hf (h.obj p)) h.obj,
    h.ncpu, h.cpus, h.zero⟩

lemma Machine.Asks.withForest (h : s.Asks n ok base) {f : Forest TreeId} (hf : f.Asks ok base) :
    ({ s with forest := f } : Machine).Asks n ok base :=
  ⟨hf, h.darray, h.obj, h.ncpu, h.cpus, h.zero⟩

lemma modObj_asks (h : ∀ o, o.PidsOk ok → (f o).PidsOk ok) :
    Asking n ok base (change (Machine.modObj p f)) := .change fun _ hs => hs.modObj (h _)

lemma modTree_asks (p : Kobj) (f : AddressTree → AddressTree) : Asking n ok base (modTree p f) :=
  modObj_asks fun _ h => ⟨h.koPid, h.share, h.processor⟩

lemma modProcessor_asks {f : Processor → Processor}
    (h : ∀ x, ok x.psSharemap.map.pid → ok (f x).psSharemap.map.pid) :
    Asking n ok base (modProcessor p f) :=
  modObj_asks fun _ ho => ⟨ho.koPid, ho.share, h _ ho.processor⟩

/-- What the watch looks at. -/
def Machine.watched (s : Machine) : Forest TreeId × (TreeId → Darray) × (Kobj → Kobject) × ℕ :=
  (s.forest, s.darray, s.obj, s.ncpu)

lemma globals_asks {f : Machine → Machine} (h : ∀ s, (f s).watched = s.watched) :
    Asking n ok base (change f) := .change fun s hs => by
  obtain ⟨hf, hd, ho, hn⟩ : _ ∧ _ ∧ _ ∧ _ := by simpa only [Machine.watched, Prod.mk.injEq] using h s
  exact ⟨hf ▸ hs.forest, hd ▸ hs.darray, ho ▸ hs.obj, hn ▸ hs.ncpu, hs.cpus, hs.zero⟩

/-! ### Reading -/

lemma getObj_asks (p : Kobj) : Gives (.all (Machine.Asks n ok base)) (Machine.Asks n ok base)
    (fun o _ => o.PidsOk ok) (getObj p) := .bind_of .state fun _ _ hs hst => ⟨hs, hst ▸ hs.obj p⟩

lemma deref_asks (p : Kobj) : Gives (.all (Machine.Asks n ok base)) (Machine.Asks n ok base)
    (fun o _ => o.PidsOk ok) (deref p) :=
  .bind_val (getObj_asks p) fun _ ho => .ite (.pure fun _ _ => ho) (.halt _)

lemma derefAs_asks (t : KobjType) (p : Kobj) :
    Gives (.all (Machine.Asks n ok base)) (Machine.Asks n ok base)
      (fun o _ => o.PidsOk ok) (derefAs t p) :=
  .bind_val (deref_asks p) fun _ ho => .ite (.pure fun _ _ => ho) (.halt _)

lemma archCpu_asks : Asking n ok base archCpu := .bind .state fun _ => .done _

/-! ### Parts of the machine -/

lemma onForest_asks {m : ForestM TreeId α} (h : Stays (Forest.Asks ok base) m) :
    Asking n ok base (onForest m) :=
  .part h (fun _ hs => hs.forest) fun _ _ hs hf => hs.withForest hf

lemma onArrays_asks {m : DaM TreeId α} (h : Stays (ArraysAsk ok base) m) :
    Asking n ok base (onArrays m) :=
  .part h (fun _ hs => ⟨hs.darray, hs.forest⟩) fun _ _ hs hr =>
    ⟨hr.2, hr.1, hs.obj, hs.ncpu, hs.cpus, hs.zero⟩

lemma onShareMap_asks (sh : Kobj) {m : MapM TreeId Blob α} (h : Stays (MapAsks ok base) m) :
    Asking n ok base (onShareMap sh m) :=
  .part h (fun _ hs => ⟨(hs.obj sh).share, hs.forest⟩) fun _ _ hs hr =>
    (hs.withForest hr.2).modObj fun ho => ⟨ho.koPid, hr.1, ho.processor⟩

lemma onSharemap_asks (ps : Kobj) {m : MapM TreeId Kobj α} (h : Stays (MapAsks ok base) m) :
    Asking n ok base (onSharemap ps m) :=
  .part h (fun _ hs => ⟨(hs.obj ps).processor, hs.forest⟩) fun _ _ hs hr =>
    (hs.withForest hr.2).modObj fun ho => ⟨ho.koPid, ho.share, hr.1⟩

lemma onPagemap_asks (a : Kobj) {m : Comp Errno (Option Pagemap × Forest TreeId) α}
    (h : Stays (AsksIn ok base) m) : Asking n ok base (onPagemap a m) :=
  .part h (fun _ hs => ⟨trivial, hs.forest⟩) fun _ _ hs hr =>
    (hs.withForest hr.2).modObj fun ho => ⟨ho.koPid, ho.share, ho.processor⟩

/-! ### Objects -/

lemma bear_asks {o : Kobject} (h : ok 0 → o.PidsOk ok) : Asking n ok base (bear o) :=
  .bind .state fun _ => .seq (.change fun _ hs =>
    ⟨hs.forest, hs.darray, forall_modObj (P := fun _ => Kobject.PidsOk ok) (f := fun _ => o)
      (h hs.zero) hs.obj, hs.ncpu, hs.cpus, hs.zero⟩) (.done _)

lemma idAlloc_asks : Asking n ok base idAlloc :=
  .bind archCpu_asks fun _ => .bind .state fun _ =>
    .seq (globals_asks fun _ => rfl) (.seq (.check _) (.done _))

lemma kobjectAlloc_asks (h : ok pid) (type : KobjType) :
    Asking n ok base (kobjectAlloc type pid) :=
  .bind (onForest_asks (takePage_asks h)) fun _ => .bind idAlloc_asks fun _ =>
    bear_asks fun h0 => ⟨h, h0, h0⟩

lemma kobjectIncref_asks (ko : Kobj) : Asking n ok base (kobjectIncref ko) :=
  .bind (deref_asks ko) fun _ => modObj_asks fun _ h => ⟨h.koPid, h.share, h.processor⟩

lemma kobjectDecref_asks (ko : Kobj) : Asking n ok base (kobjectDecref ko) :=
  .bind (deref_asks ko) fun _ => .seq (.check _) <|
    .seq (modObj_asks fun _ h => ⟨h.koPid, h.share, h.processor⟩) <|
    .ite (.bind archCpu_asks fun _ => globals_asks fun _ => rfl) (.done _)

lemma kobjectFree_asks (ko : Kobj) : Asking n ok base (kobjectFree ko) :=
  .bind (getObj_asks ko) fun _ => .seq (onForest_asks (givePage_asks _)) <| .change fun _ hs => by
      have h := hs.modObj (p := ko) (f := fun o => { o with live := false }) fun ho =>
        ⟨ho.koPid, ho.share, ho.processor⟩
      exact ⟨h.forest, h.darray, h.obj, h.ncpu, h.cpus, h.zero⟩

lemma setMapList_asks (ko : Kobj) (l : List AmRef) : Asking n ok base (setMapList ko l) :=
  modObj_asks fun _ h => by
    split <;> exact ⟨h.koPid, h.share, h.processor⟩

lemma pushAction_asks (a : ShareAction) : Asking n ok base (pushAction a) :=
  .bind archCpu_asks fun _ => .bind (derefAs_asks _ _) fun _ => by
    cases a.saAction with
    | ci => exact globals_asks fun _ => rfl
    | dec => exact globals_asks fun _ => rfl

lemma processorStart_asks (ps a : Kobj) (uc : UContext) :
    Asking n ok base (processorStart ps a uc) :=
  .seq (.bind (derefAs_asks _ _) fun _ => modTree_asks _ _) <|
    .seq (modProcessor_asks fun _ h => h) <| .bind (getObj_asks _) fun _ =>
      globals_asks fun _ => rfl

/-! ### Following a computation -/

/-- Where a computation began, and what the ids it uses are to be. -/
structure Watch where
  n : ℕ
  ok : ℕ → Prop
  base : List ℕ
  start : Machine

namespace Watch

variable (b : Watch) (R : Machine → Machine → Prop)

/-- Steps of `R` have led here, and the ids are as they should be. -/
def At (s : Machine) : Prop := Relation.ReflTransGen R b.start s ∧ s.Asks b.n b.ok b.base

/-- A run that stops need only have used the right ids. -/
@[reducible] def exits : Exits Errno Machine := ⟨fun _ => b.At R, fun _ s => s.Asks b.n b.ok b.base⟩

instance : Exits.Of (b.At R) (b.exits R) := ⟨fun _ _ => Iff.rfl, fun _ _ h => h.2⟩

end Watch

/-- What is found has the property `P`. -/
abbrev Reads (R : Machine → Machine → Prop) (b : Watch) (P : α → Prop) (m : KM α) : Prop :=
  Gives (b.exits R) (b.At R) (fun a _ => P a) m

abbrev Tracks (R : Machine → Machine → Prop) (b : Watch) (m : KM α) : Prop :=
  Gives (b.exits R) (b.At R) (fun _ _ => True) m

namespace Tracks

variable {R R' : Machine → Machine → Prop} {b : Watch} {m : KM α}

lemma of (hs : Steps R m) (ha : Asking b.n b.ok b.base m) : Tracks R b m := by
  intro s h
  have h1 := ha s h.2
  have h2 := hs s
  simp only [wp, Ends] at h1 h2 ⊢
  rcases hm : m s with ⟨_ | _ | w, t⟩ <;> rw [hm] at h1 h2
  · exact ⟨⟨h.1.trans (h2 (by simp)), h1.1⟩, trivial⟩
  · exact ⟨h.1.trans (h2 (by simp)), h1⟩
  · exact h1

lemma asking (h : ∀ s₀, Tracks R ⟨n, ok, base, s₀⟩ m) : Asking n ok base m := fun s hs =>
  wp_mono (h s s ⟨.refl, hs⟩) (fun _ _ ht => ⟨ht.1.2, ht.2⟩) fun _ _ ht => ht.2

lemma steps (h : ∀ n base s₀, Tracks R ⟨n, fun _ => True, base, s₀⟩ m) : Steps R m := by
  intro s hs
  have hself : s.Asks s.ncpu (fun _ => True) s.mem.asked :=
    ⟨⟨⟨[], rfl, fun _ _ => trivial⟩, fun _ => trivial⟩, fun _ => trivial,
      fun _ => ⟨trivial, trivial, trivial⟩, rfl, fun _ _ => trivial, trivial⟩
  have hm := h s.ncpu s.mem.asked s s ⟨.refl, hself⟩
  simp only [wp, Ends] at hm hs
  rcases hms : m s with ⟨_ | _ | w, t⟩ <;> rw [hms] at hm hs
  · exact hm.1.1
  · exact hm.1
  · exact absurd rfl (hs w)

lemma mono (h : ∀ s s', R s s' → R' s s') (hm : ∀ s₀, Tracks R { b with start := s₀ } m) :
    Tracks R' b m := fun s hs =>
  have hR : ∀ {t}, Relation.ReflTransGen R s t → Relation.ReflTransGen R' b.start t := fun ht =>
    hs.1.trans (Relation.ReflTransGen.mono h _ _ ht)
  wp_mono (hm s s ⟨.refl, hs.2⟩) (fun _ _ ht => ⟨⟨hR ht.1.1, ht.1.2⟩, ht.2⟩)
    fun _ _ ht => ⟨hR ht.1, ht.2⟩

end Tracks

/-! ### Reading -/

section

variable {R : Machine → Machine → Prop} {b : Watch}

lemma getObj_acts (p : Kobj) : Reads R b (Kobject.PidsOk b.ok) (getObj p) :=
  .bind_of .state fun _ _ hs hst => ⟨hs, hst ▸ hs.2.obj p⟩

lemma deref_acts (p : Kobj) : Reads R b (Kobject.PidsOk b.ok) (deref p) :=
  .bind_val (getObj_acts p) fun _ ho => .ite (.pure fun _ _ => ho) (.halt _)

lemma derefAs_acts (t : KobjType) (p : Kobj) : Reads R b (Kobject.PidsOk b.ok) (derefAs t p) :=
  .bind_val (deref_acts p) fun _ ho => .ite (.pure fun _ _ => ho) (.halt _)

lemma archCpu_acts : Tracks R b archCpu := .bind .state fun _ => .done _

lemma processorSched_acts : Tracks R b processorSched :=
  .bind archCpu_acts fun _ => .bind .state fun _ => .done _

lemma theProcessor_acts : Tracks R b theProcessor :=
  .bind processorSched_acts fun _ => (Gives.need _ _).keeps

lemma idOf_acts (ko : Kobj) : Tracks R b (idOf ko) := .bind (deref_acts _) fun _ => .done _

lemma getInfo_acts (sh : Kobj) (x : Blob) : Tracks R b (getInfo sh x) :=
  .bind (derefAs_acts _ _) fun _ => .done _

lemma shareInfos_acts (sh : Kobj) : Tracks R b (shareInfos sh) :=
  .bind (derefAs_acts _ _) fun _ => .done _

lemma atNents_acts (a : Kobj) : Tracks R b (atNents a) :=
  .bind (derefAs_acts _ _) fun _ => .bind .state fun _ => .done _

lemma getAm_acts (r : AmRef) : Tracks R b (getAm r) := .bind (derefAs_acts _ _) fun _ => .done _

lemma amlGetList_acts (ko : Kobj) : Tracks R b (amlGetList ko) :=
  .bind (deref_acts _) fun _ => .seq (.check _) (.done _)

lemma segmentGetNpage_acts (sg : Kobj) : Tracks R b (segmentGetNpage sg) :=
  .bind (derefAs_acts _ _) fun _ => .bind .state fun _ => .done _

lemma deref_quiet (p : Kobj) : Steps R (deref p) :=
  .bind (.of_quiet fun _ => rfl) fun _ => .ite (.pure _) (.halt _)

lemma derefAs_quiet (t : KobjType) (p : Kobj) : Steps R (derefAs t p) :=
  .bind (deref_quiet p) fun _ => .ite (.pure _) (.halt _)

lemma theProcessor_quiet : Steps R theProcessor :=
  .bind (.of_quiet fun _ => rfl) fun _ => .need _ _

lemma idOf_quiet (ko : Kobj) : Steps R (idOf ko) := .bind (deref_quiet _) fun _ => .pure _

lemma getInfo_quiet (sh : Kobj) (x : Blob) : Steps R (getInfo sh x) :=
  .bind (derefAs_quiet _ _) fun _ => .pure _

lemma atNents_quiet (a : Kobj) : Steps R (atNents a) :=
  .bind (derefAs_quiet _ _) fun _ => .bind .state fun _ => .pure _

lemma getAm_quiet (r : AmRef) : Steps R (getAm r) := .bind (derefAs_quiet _ _) fun _ => .pure _

/-- The parts of `at_clear_mappings` that change something. -/
lemma atClearMappings_steps {a : Kobj} (hget : ∀ i, Steps R (atGetAddrmap a i))
    (hremove : ∀ ko r, Steps R (amlRemove ko r)) (hclear : ∀ r, Steps R (clearKobj r)) :
    Steps R (atClearMappings a) := by
  refine .bind (atNents_quiet a) fun n => .loop (fun i => .bind (.attempt (.bind (atNents_quiet a)
    fun _ => .bind (.of_quiet fun _ => rfl) fun _ => .ite (.raise _) (.pure _))) fun r => ?_) n 0
  cases r with
  | error => exact .halt _
  | ok =>
    refine .ite (.pure _) <| .bind (.attempt (hget i)) fun r => ?_
    cases r with
    | error => exact .pure _
    | ok am =>
      dsimp only
      cases am.amKobj with
      | none => exact .pure _
      | some ko => exact .seq (hremove _ _) (hclear _)

lemma amlGetList_quiet (ko : Kobj) : Steps R (amlGetList ko) :=
  .bind (deref_quiet _) fun _ => .seq (.require _) (.pure _)

end

end Corey.Kern

namespace Corey.Comp

open Corey.Kern

variable {R : Machine → Machine → Prop} {b : Watch} {t : KobjType} {p : Kobj} {α : Type}
  {k : Kobject → KM α} {P : α → Machine → Prop}

lemma Gives.deref (h : ∀ o, Gives (b.exits R) (b.At R) P (k o)) :
    Gives (b.exits R) (b.At R) P (do let o ← Kern.deref p; k o) := .bind (deref_acts p) h

lemma Gives.derefAs (h : ∀ o, Gives (b.exits R) (b.At R) P (k o)) :
    Gives (b.exits R) (b.At R) P (do let o ← Kern.derefAs t p; k o) := .bind (derefAs_acts t p) h

lemma Steps.deref (h : ∀ o, Steps R (k o)) : Steps R (do let o ← Kern.deref p; k o) :=
  .bind (deref_quiet p) h

lemma Steps.derefAs (h : ∀ o, Steps R (k o)) : Steps R (do let o ← Kern.derefAs t p; k o) :=
  .bind (derefAs_quiet t p) h

end Corey.Comp
