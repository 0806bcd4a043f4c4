import Corey.Kern.Asks

/-!
What the kernel can do to its state.

`Effect K` lists the smallest changes the kernel makes: most of them are quiet, and those that
an invariant may care about have a name, of which `K` says whether it is allowed. The functions
of the kernel are then shown, one after the other, to take steps of `Effect K` only.
-/

namespace Corey.Kern

open Function Corey.Comp Corey.Mem Machine
open Corey.Mem.Forest (ForestM)
open Relation (ReflTransGen)

/-- The changes that are told apart: an object is born, a reference is taken, a reference to an
object or to some share is given up, an action is queued, a processor starts, a processor loses
its tree or stops, a processor is halted as a whole, and whatever a page fault does. -/
inductive Kind
  | birth (t : KobjType) | ref | drop (ko : Kobj) | dropShare | act | start | unset | halt | fault
  deriving DecidableEq

/-! ### Objects -/

def Kobject.Runs (o : Kobject) (a : Kobj) : Prop := o.ps.psRunning = true ∧ o.ps.psAt = some a
  deriving Decidable

/-- What of an object is told apart. -/
def Kobject.core (o : Kobject) : Bool × ℕ × KobjType × ℕ × Bool × Option Kobj :=
  (o.live, o.koId, o.koType, o.koRef, o.ps.psRunning, o.ps.psAt)

/-- Nothing that is told apart changes, and an empty lookup cache stays empty. -/
structure Mild (o o' : Kobject) : Prop where
  core : o'.core = o.core
  cache : o.tree.atObj.ref.object = 0 → o'.tree.atObj.ref.object = 0

namespace Mild

variable {o o' : Kobject}

lemma refl (o : Kobject) : Mild o o := ⟨rfl, id⟩

lemma ps {p : Processor} (h : p.psRunning = o.ps.psRunning) (h' : p.psAt = o.ps.psAt) :
    Mild o { o with ps := p } := ⟨by simp only [Kobject.core, h, h'], id⟩

lemma live (h : Mild o o') : o'.live = o.live := congrArg (·.1) h.core
lemma koType (h : Mild o o') : o'.koType = o.koType := congrArg (·.2.2.1) h.core
lemma koRef (h : Mild o o') : o'.koRef = o.koRef := congrArg (·.2.2.2.1) h.core
lemma running (h : Mild o o') : o'.ps.psRunning = o.ps.psRunning :=
  congrArg (·.2.2.2.2.1) h.core
lemma psAt (h : Mild o o') : o'.ps.psAt = o.ps.psAt := congrArg (·.2.2.2.2.2) h.core

end Mild

/-- The lists of the machine, and how many objects and CPUs there are. -/
def Machine.lists (s : Machine) : (ℕ → List Kobj) × (ℕ → List ShareAction) ×
    (ℕ → List ShareAction) × List (Kobj × ℕ) × ℕ × ℕ :=
  (s.koGcList, s.shCiList, s.shRmList, s.freed, s.born, s.ncpu)

structure Quiet (s s' : Machine) : Prop where
  obj : ∀ p, Mild (s.obj p) (s'.obj p)
  lists : s'.lists = s.lists

/-- The object is in the lookup cache of an address tree. -/
def Machine.Cached (s : Machine) (ko : Kobj) : Prop :=
  ∃ a, (s.obj a).tree.atObj.ref.object ≠ 0 ∧ (s.obj a).tree.atObj.ko = ko

namespace Quiet

variable {s s' : Machine} {p : Kobj} {f : Kobject → Kobject}

lemma of_obj (h : s'.obj = s.obj) (hl : s'.lists = s.lists) : Quiet s s' :=
  ⟨fun _ => h ▸ .refl _, hl⟩

lemma modObj (hm : Mild (s.obj p) (f (s.obj p))) (w : Forest TreeId) :
    Quiet s (Machine.modObj p f { s with forest := w }) :=
  ⟨forall_modObj (s := { s with forest := w }) (P := fun q => Mild (s.obj q)) hm
    fun _ => .refl _, rfl⟩

end Quiet

/-! ### What some of the functions come down to -/

/-- Giving up a reference, the last one or another. -/
inductive Decrefs (ko : Kobj) (s : Machine) : Machine → Prop
  | stops : Decrefs ko s s
  | one (hr : 1 < (s.obj ko).koRef) :
      Decrefs ko s (s.modObj ko fun o => { o with koRef := o.koRef - 1 })
  | last (hr : (s.obj ko).koRef = 1) (hl : s.live ko = true) (cpu : ℕ) :
      Decrefs ko s (Machine.collect cpu ko (s.modObj ko fun o => { o with koRef := o.koRef - 1 }))

lemma kobjectDecref_decrefs (ko : Kobj) (s : Machine) : Decrefs ko s (kobjectDecref ko s).2 := by
  refine state_of_wp ?_
  simp only [kobjectDecref, kobjectGcCollect, wp_rules, wp_deref, wp_archCpu]
  refine ⟨fun hl => ⟨fun hr => ⟨fun h1 => ?_, fun h1 => ?_⟩, fun _ => ?_⟩, fun _ => ?_⟩
  · exact .last h1 hl _
  · exact .one (by omega)
  · exact .stops
  · exact .stops

inductive Pushes (a : ShareAction) (s : Machine) : Machine → Prop
  | stops : Pushes a s s
  | one {c r : ℕ → List ShareAction} (hl : s.live a.saSh = true)
      (ht : (s.obj a.saSh).koType = .share) (hc : ∀ i, c i ⊆ a :: s.shCiList i)
      (hr : ∀ i, r i ⊆ a :: s.shRmList i) : Pushes a s { s with shCiList := c, shRmList := r }

lemma pushAction_pushes (a : ShareAction) (s : Machine) : Pushes a s (pushAction a s).2 := by
  have hup : ∀ (l : ℕ → List ShareAction) (cpu i : ℕ), update l cpu (a :: l cpu) i ⊆ a :: l i := by
    intro l cpu i
    by_cases hi : i = cpu
    · subst hi
      simp
    · rw [update_of_ne hi]
      exact List.subset_cons_self _ _
  refine state_of_wp ?_
  simp only [pushAction, wp_bind, wp_archCpu, wp_derefAs]
  refine ⟨fun hl ht => ?_, fun _ _ => .stops, fun _ => .stops⟩
  cases a.saAction with
  | ci => exact .one hl ht (hup _ _) fun _ => List.subset_cons_self _ _
  | dec => exact .one hl ht (fun _ => List.subset_cons_self _ _) (hup _ _)

/-- The references that may be given up; what a lookup cache holds always may. -/
def Permits (K : Set Kind) (s : Machine) (ko : Kobj) : Prop :=
  .drop ko ∈ K ∨ (.dropShare ∈ K ∧ (s.obj ko).koType = .share) ∨ s.Cached ko

inductive Effect (K : Set Kind) (s : Machine) : Machine → Prop
  | quiet {s' : Machine} (h : Quiet s s') : Effect K s s'
  | birth {t : KobjType} (hk : .birth t ∈ K) (cpu id pid : ℕ) (p : Ppn) :
      Effect K s (Machine.collect cpu s.born
        (Machine.bear { live := true, koId := id, koType := t, koPid := pid, page := p } s))
  | incref (hk : .ref ∈ K) (ko : Kobj) :
      Effect K s (s.modObj ko fun o => { o with koRef := o.koRef + 1 })
  | decref {ko : Kobj} (hk : Permits K s ko) {s' : Machine} (h : Decrefs ko s s') : Effect K s s'
  | pop {c r : ℕ → List ShareAction} (hc : ∀ i, c i ⊆ s.shCiList i)
      (hr : ∀ i, r i ⊆ s.shRmList i) : Effect K s { s with shCiList := c, shRmList := r }
  | push (hk : .act ∈ K) {a : ShareAction} {s' : Machine} (h : Pushes a s s') : Effect K s s'
  | start (hk : .start ∈ K) {p a : Kobj} {g : Processor → Processor} (hl : s.live a = true)
      (ht : (s.obj a).koType = .addressTree) (hg : ∀ q, (g q).psAt = some a) :
      Effect K s (s.modObj p fun o => { o with ps := g o.ps })
  | unset (hk : .unset ∈ K) {p : Kobj} {g : Processor → Processor}
      (h : ∀ q, (g q).psRunning = true → q.psRunning = true)
      (h' : ∀ q a, (g q).psAt = some a → q.psAt = some a) :
      Effect K s (s.modObj p fun o => { o with ps := g o.ps })
  | fault (hk : .fault ∈ K) (s' : Machine) : Effect K s s'

lemma Permits.mono {K K' : Set Kind} (h : K ⊆ K') {s : Machine} {ko : Kobj} (hd : Permits K s ko) :
    Permits K' s ko := hd.imp (@h _) (Or.imp_left (And.imp_left (@h _)))

lemma Effect.mono {K K' : Set Kind} (h : K ⊆ K') {s s' : Machine} (he : Effect K s s') :
    Effect K' s s' := by
  cases he with
  | quiet h1 => exact .quiet h1
  | birth hk cpu id pid p => exact .birth (h hk) cpu id pid p
  | incref hk ko => exact .incref (h hk) ko
  | decref hk h1 => exact .decref (hk.mono h) h1
  | pop hc hr => exact .pop hc hr
  | push hk h1 => exact .push (h hk) h1
  | start hk hl ht hg => exact .start (h hk) hl ht hg
  | unset hk h1 h2 => exact .unset (h hk) h1 h2
  | fault hk s' => exact .fault (h hk) s'

/-- The functions of the kernel, as what follows treats them. -/
abbrev Does (K : Set Kind) {α : Type} (m : KM α) : Prop := Steps (Effect K) m

abbrev Acts (K : Set Kind) (b : Watch) {α : Type} (m : KM α) : Prop := Tracks (Effect K) b m

variable {K : Set Kind} {b : Watch} {pid : ℕ} {α : Type} {p : Kobj} {f : Kobject → Kobject}

/-! ### What can happen to one object -/

/-- The ways in which the object `p` of `s` becomes the one of `s'`. -/
inductive ObjStep (K : Set Kind) (s s' : Machine) (p : Kobj) : Prop
  | mild (h : Mild (s.obj p) (s'.obj p))
  | birth {t : KobjType} (hk : .birth t ∈ K) (hp : p = s.born) (hb : s.born < s'.born)
      {id pid : ℕ} {q : Ppn}
      (h : s'.obj p = { live := true, koId := id, koType := t, koPid := pid, page := q })
  | incref (hk : .ref ∈ K) (h : s'.obj p = { s.obj p with koRef := (s.obj p).koRef + 1 })
  | decref (hk : Permits K s p) (hr : (s.obj p).koRef ≠ 0)
      (h : s'.obj p = { s.obj p with koRef := (s.obj p).koRef - 1 })
  | start (hk : .start ∈ K) {a : Kobj} {q : Processor} (hl : s.live a = true)
      (ht : (s.obj a).koType = .addressTree) (hq : q.psAt = some a)
      (h : s'.obj p = { s.obj p with ps := q })
  | unset (hk : .unset ∈ K) {q : Processor}
      (hr : q.psRunning = true → (s.obj p).ps.psRunning = true)
      (hq : ∀ a, q.psAt = some a → (s.obj p).ps.psAt = some a)
      (h : s'.obj p = { s.obj p with ps := q })

lemma Effect.born_le {s s' : Machine} (h : Effect K s s') (hf : .fault ∉ K) :
    s.born ≤ s'.born := by
  cases h with
  | quiet hq => exact (congrArg (·.2.2.2.2.1) hq.lists).ge
  | birth => exact Nat.le_succ _
  | incref | start | unset | pop => exact le_rfl
  | decref _ h | push _ h => cases h <;> exact le_rfl
  | fault hk => exact absurd hk hf

lemma Effect.objStep {s s' : Machine} (h : Effect K s s') (hf : .fault ∉ K) (p : Kobj) :
    ObjStep K s s' p := by
  have hmod : ∀ {q : Kobj} {g : Kobject → Kobject} {t : Machine}, t.obj = (s.modObj q g).obj →
      (t.obj q = g (s.obj q) → ObjStep K s t q) → ObjStep K s t p := by
    intro q g t ht hq
    by_cases hp : p = q
    · subst hp
      exact hq (by rw [ht, modObj_self])
    · refine .mild ?_
      rw [ht, modObj_of_ne hp]
      exact .refl _
  cases h with
  | quiet hq => exact .mild (hq.obj p)
  | birth hk cpu id pid q =>
    by_cases hp : p = s.born
    · subst hp
      exact .birth hk rfl (Nat.lt_succ_self _) (update_self ..)
    · refine .mild ?_
      show Mild (s.obj p) (update s.obj s.born _ p)
      rw [update_of_ne hp]
      exact .refl _
  | incref hk ko => exact hmod rfl (.incref hk)
  | decref hk h =>
    rcases h with ⟨⟩ | ⟨hr⟩ | ⟨hr, -, cpu⟩
    · exact .mild (.refl _)
    · exact hmod rfl (.decref hk (Nat.ne_zero_of_lt hr))
    · exact hmod (g := fun o => { o with koRef := o.koRef - 1 }) rfl (.decref hk (by omega))
  | pop => exact .mild (.refl _)
  | push _ h => cases h <;> exact .mild (.refl _)
  | start hk hl ht hg => exact hmod rfl (.start hk hl ht (hg _))
  | unset hk h1 h2 => exact hmod rfl (.unset hk (h1 _) (h2 _))
  | fault hk => exact absurd hk hf

def Kobject.head (o : Kobject) : Bool × ℕ × KobjType := (o.live, o.koId, o.koType)

/-- The same object, as far as its head goes. -/
def Kin (o o' : Kobject) : Prop :=
  o'.live = o.live ∧ o'.koId = o.koId ∧ o'.koType = o.koType

lemma Kin.of_head {o o' : Kobject} (h : o'.head = o.head) : Kin o o' :=
  ⟨congrArg (·.1) h, congrArg (·.2.1) h, congrArg (·.2.2) h⟩

lemma kin_modObj {s : Machine} (p q : Kobj) (h : Kin (s.obj p) (f (s.obj p))) :
    Kin (s.obj q) ((s.modObj p f).obj q) :=
  forall_modObj (P := fun q => Kin (s.obj q)) h (fun _ => ⟨rfl, rfl, rfl⟩) q

lemma Kin.trans {o o' o'' : Kobject} (h : Kin o o') (h' : Kin o' o'') : Kin o o'' :=
  ⟨h'.1.trans h.1, h'.2.1.trans h.2.1, h'.2.2.trans h.2.2⟩

lemma Effect.kin {s s' : Machine} (h : Effect K s s') (hf : .fault ∉ K) (p : Kobj) :
    Kin (s.obj p) (s'.obj p) ∨
      p = s.born ∧ s.born < s'.born ∧ .birth (s'.obj p).koType ∈ K := by
  cases h.objStep hf p with
  | mild hm => exact .inl ⟨hm.live, congrArg (·.2.1) hm.core, hm.koType⟩
  | birth hk hp hb ho =>
    rw [ho]
    exact .inr ⟨hp, hb, hk⟩
  | incref _ ho | decref _ _ ho | start _ _ _ _ ho | unset _ _ _ ho =>
    rw [ho]
    exact .inl ⟨rfl, rfl, rfl⟩

/-! ### Objects and lists -/

lemma quiet_does {m : KM α} (h : ∀ s, Quiet s (m s).2) : Does K m := .of_rel fun s _ => .quiet (h s)

lemma modObj_does (h : ∀ o, Mild o (f o)) : Does K (change (modObj p f) : KM Unit) :=
  quiet_does fun _ => .modObj (h _) _

/-- What works on a part of an object and on the trees. -/
lemma zoom_does {τ : Type} {g : Machine → τ} {f : τ → Kobject → Kobject} {w : τ → Forest TreeId}
    {m : Comp Errno τ α} (h : ∀ t o, Mild o (f t o)) :
    Does K (zoom g (fun t s => modObj p (f t) { s with forest := w t }) m) :=
  quiet_does fun _ => .modObj (h _ _) _

lemma modObj_acts (h : ∀ o, Mild o (f o)) (h' : ∀ o, o.PidsOk b.ok → (f o).PidsOk b.ok) :
    Acts K b (change (modObj p f)) := .of (modObj_does h) (modObj_asks h')

lemma modSegment_acts (p : Kobj) (f : Segment → Segment) : Acts K b (modSegment p f) :=
  modObj_acts (fun _ => ⟨rfl, id⟩) fun _ h => ⟨h.koPid, h.share, h.processor⟩

lemma modShare_acts {f : Share → Share}
    (h : ∀ x, b.ok x.shKobjectMap.pid → b.ok (f x).shKobjectMap.pid) : Acts K b (modShare p f) :=
  modObj_acts (fun _ => ⟨rfl, id⟩) fun _ ho => ⟨ho.koPid, h _ ho.share, ho.processor⟩

lemma modProcessor_acts {f : Processor → Processor}
    (h : ∀ q, (f q).psRunning = q.psRunning) (h' : ∀ q, (f q).psAt = q.psAt)
    (hp : ∀ q, b.ok q.psSharemap.map.pid → b.ok (f q).psSharemap.map.pid) :
    Acts K b (modProcessor p f) :=
  modObj_acts (fun _ => .ps (h _) (h' _)) fun _ ho => ⟨ho.koPid, ho.share, hp _ ho.processor⟩

lemma unset_acts (hk : .unset ∈ K) {f : Processor → Processor}
    (h : ∀ q, (f q).psRunning = true → q.psRunning = true)
    (h' : ∀ q a, (f q).psAt = some a → q.psAt = some a)
    (hp : ∀ q, (f q).psSharemap = q.psSharemap) : Acts K b (modProcessor p f) :=
  .of (.change fun _ => .unset hk h h') <| modProcessor_asks fun q hq => by rwa [hp q]

lemma modTree_acts {f : AddressTree → AddressTree} (h : ∀ t, (f t).atObj = t.atObj) :
    Acts K b (modTree p f) :=
  .of (modObj_does fun _ => ⟨rfl, fun hc => by rwa [h]⟩) (modTree_asks _ _)

lemma globals_acts {f : Machine → Machine}
    (h : ∀ s, ((f s).watched, (f s).lists) = (s.watched, s.lists)) : Acts K b (change f) :=
  .of (quiet_does fun s => .of_obj (congrArg (·.1.2.2.1) (h s)) (congrArg (·.2) (h s)))
    (globals_asks fun s => congrArg (·.1) (h s))

lemma kobjectAlloc_acts {t : KobjType} (hk : .birth t ∈ K) (h : b.ok pid) :
    Acts K b (kobjectAlloc t pid) := by
  refine .of (.bind (quiet_does fun _ => .of_obj rfl rfl) fun _ => .bind ?_ fun _ =>
    .bind .state fun _ => .seq (.change fun _ => .birth hk _ _ _ _) (.pure _))
    (kobjectAlloc_asks h t)
  exact .bind (.of_quiet fun _ => rfl) fun _ => .bind .state fun _ =>
    .seq (quiet_does fun _ => .of_obj rfl rfl) (.seq (.require _) (.pure _))

lemma kobjectIncref_acts (hk : .ref ∈ K) (ko : Kobj) : Acts K b (kobjectIncref ko) :=
  .of (.deref fun _ => .change fun _ => .incref hk ko) (kobjectIncref_asks ko)

lemma kobjectDecref_acts {ko : Kobj} (hk : .drop ko ∈ K) : Acts K b (kobjectDecref ko) :=
  .of (.of_rel fun s _ => .decref (.inl hk) (kobjectDecref_decrefs ko s)) (kobjectDecref_asks ko)

lemma setInfo_acts (sh : Kobj) (x : Blob) (i : ShareInfo) : Acts K b (setInfo sh x i) :=
  modShare_acts fun _ h => h

/-! ### Trees and maps -/

lemma onForest_acts {m : ForestM TreeId α} (ha : Stays (Forest.Asks b.ok b.base) m) :
    Acts K b (onForest m) := .of (quiet_does fun _ => .of_obj rfl rfl) (onForest_asks ha)

lemma onArrays_acts {m : DaM TreeId α} (ha : Stays (ArraysAsk b.ok b.base) m) :
    Acts K b (onArrays m) := .of (quiet_does fun _ => .of_obj rfl rfl) (onArrays_asks ha)

lemma onShareMap_acts (sh : Kobj) {m : MapM TreeId Blob α} (ha : Stays (MapAsks b.ok b.base) m) :
    Acts K b (onShareMap sh m) :=
  .of (zoom_does fun _ _ => ⟨rfl, id⟩) (onShareMap_asks _ ha)

lemma onSharemap_acts (ps : Kobj) {m : MapM TreeId Kobj α} (ha : Stays (MapAsks b.ok b.base) m) :
    Acts K b (onSharemap ps m) :=
  .of (zoom_does fun _ _ => ⟨rfl, id⟩) (onSharemap_asks _ ha)

lemma onPagemap_acts (a : Kobj) {m : Comp Errno (Pagemap × Forest TreeId) α}
    (ha : Stays (AsksIn b.ok b.base) m) : Acts K b (onPagemap a (focus theMap m)) :=
  .of (zoom_does fun _ _ => ⟨rfl, id⟩) (onPagemap_asks a (focusIn_asks ha))

lemma shareMapGet_acts (sh : Kobj) (id : ℕ) : Acts K b (onShareMap sh (mapGet id)) :=
  onShareMap_acts _ (onTable_asks _)

/-! ### Shares -/

lemma shareBlobPage_acts (sh : Kobj) (cpu : ℕ) : Acts K b (shareBlobPage sh cpu) :=
  .bind_val (derefAs_acts _ _) fun _ ho =>
    .bind (onForest_acts (putNewPage_asks ho.koPid _ _)) fun _ =>
      .seq (onForest_acts (Forest.onMem_asks (.change fun _ h => h)))
        (modShare_acts fun _ h => h)

lemma shareBlobAlloc_acts (sh : Kobj) : Acts K b (shareBlobAlloc sh) :=
  .bind archCpu_acts fun _ => .derefAs fun _ =>
    .join (shareBlobPage_acts _ _) fun _ => .derefAs fun _ =>
      .bind (.need _ _) fun _ => .seq (modShare_acts fun _ h => h) (.done _)

lemma shareBlobFree_acts (sh : Kobj) (x : Blob) : Acts K b (shareBlobFree sh x) :=
  .bind archCpu_acts fun _ => .derefAs fun _ => modShare_acts fun _ h => h

lemma shareAlloc_acts (hk : .birth .share ∈ K) (h : b.ok pid) (mask : ℕ) :
    Acts K b (shareAlloc mask pid) :=
  .bind (kobjectAlloc_acts hk h) fun _ =>
    .seq (.loop (fun _ => onForest_acts (Forest.initTree_asks h _ _)) _ _) <|
      .seq (modShare_acts fun _ _ => h) (.done _)

lemma pushAction_acts (hk : .act ∈ K) (a : ShareAction) : Acts K b (pushAction a) :=
  .of (.of_rel fun s _ => .push hk (pushAction_pushes a s)) (pushAction_asks a)

/-! ### Doing an action -/

lemma erased_subset (a : ShareAction) (l : ℕ → List ShareAction) (cpu i : ℕ) :
    update l cpu ((l cpu).erase a) i ⊆ l i := by
  by_cases hi : i = cpu
  · subst hi
    rw [update_self]
    exact List.erase_subset
  · rw [update_of_ne hi]
    exact List.Subset.refl _

lemma shareActionScan_asks {n : ℕ} {ok : ℕ → Prop} {base : List ℕ} :
    Asking n ok base shareActionScan := by
  have hinfo : ∀ sh x, Asking n ok base (getInfo sh x) := fun sh x =>
    .bind (derefAs_asks _ _) fun _ => .done _
  have hfree : ∀ sh x, Asking n ok base (shareBlobFree sh x) := fun sh x =>
    Tracks.asking fun _ => shareBlobFree_acts (K := ∅) sh x
  refine .bind archCpu_asks fun cpu => .bind .state fun s => ?_
  cases s.nextAction cpu with
  | none => exact .done _
  | some a =>
    simp only [takeAction, doAction]
    cases a.saAction with
    | ci =>
      exact .seq (.bind (hinfo _ _) fun _ => .seq (.check _) <|
          Tracks.asking fun _ => setInfo_acts (K := ∅) _ _ _) <|
        .bind archCpu_asks fun _ => .seq (globals_asks fun _ => rfl) (hfree _ _)
    | dec =>
      exact .seq (.bind (hinfo _ _) fun _ => .ite (.halt _) <|
          .seq (kobjectDecref_asks _) (hfree _ _)) <|
        .bind archCpu_asks fun _ => .seq (globals_asks fun _ => rfl) (hfree _ _)

/-- The object to which `share_action_scan` gives up a reference next on a CPU. -/
def Machine.nextDrop (s : Machine) (cpu : ℕ) : Option Kobj :=
  (s.nextAction cpu).bind fun a =>
    if a.saAction = .dec then some ((s.obj a.saSh).sh.info a.saSi).siKo else none

/-- One reference may have been given up, before anything else. -/
def Scans (s s' : Machine) : Prop :=
  ∃ t, (t = s ∨ ∃ ko, s.nextDrop s.mem.cpu = some ko ∧ Decrefs ko s t) ∧
    ReflTransGen (Effect ∅) t s'

lemma Scans.tail {s t u : Machine} (h : Scans s t) (he : Effect ∅ t u) : Scans s u := by
  obtain ⟨v, hv, hsteps⟩ := h
  exact ⟨v, hv, hsteps.tail he⟩

lemma shareActionScan_scans {s s' : Machine} (hn : shareActionScan.next s = some s') :
    Scans s s' := by
  have hfree : ∀ sh x, Does ∅ (shareBlobFree sh x) := fun sh x =>
    Tracks.steps fun _ _ _ => shareBlobFree_acts sh x
  have hrest : ∀ {m : KM Unit} {t : Machine}, Does ∅ m → Scans s t →
      m.Leaves (Scans s) t := fun hm =>
    hm.wp_keeps fun _ _ he ht => ht.tail he
  have hself : Scans s s := ⟨s, .inl rfl, .refl⟩
  refine next_of_wp (I := Scans s) ?_ hn
  simp only [shareActionScan, wp_rules, wp_archCpu]
  cases ha : s.nextAction s.mem.cpu with
  | none => exact hself
  | some a =>
    simp only [takeAction, doAction]
    cases hact : a.saAction with
    | ci =>
      refine hrest (.seq (.bind (getInfo_quiet _ _) fun _ => .seq (.require _) ?_) <|
        .bind (.of_quiet fun _ => rfl) fun _ => .seq (.change fun _ =>
          .pop (erased_subset a _ _) fun _ => List.Subset.refl _) (hfree _ _)) hself
      exact Tracks.steps fun _ _ _ => setInfo_acts _ _ _
    | dec =>
      simp only [shareActionDec, getInfo, wp_rules, wp_derefAs_any]
      refine fun _ _ => ⟨fun _ => trivial, fun _ => ?_⟩
      have hdrop : Scans s (kobjectDecref ((s.obj a.saSh).sh.info a.saSi).siKo s).2 :=
        ⟨_, .inr ⟨_, by simp [Machine.nextDrop, ha, hact], kobjectDecref_decrefs _ s⟩, .refl⟩
      refine wp_imp (wp_final _ s) (fun _ t ht => ?_) (fun _ t ht => ht ▸ hdrop)
        fun _ _ _ => trivial
      refine wp_post (hrest (hfree _ _) (ht ▸ hdrop)) fun _ u hu => ?_
      exact hrest (hfree _ _) (hu.tail (.pop (fun _ => List.Subset.refl _) (erased_subset a _ _)))

lemma shareImportObj_acts (hk : .ref ∈ K) (sh ko : Kobj) : Acts K b (shareImportObj sh ko) :=
  .deref fun _ => .derefAs fun _ => .ite (.raise _) <|
    .bind (shareBlobAlloc_acts _) fun _ => .seq (setInfo_acts _ _ _) <|
      .bind (.attempt (shareMapGet_acts _ _)) fun
        | .ok _ => .bind (getInfo_acts _ _) fun _ => .seq (setInfo_acts _ _ _)
            (shareBlobFree_acts _ _)
        | .error _ => .seq (.onErr (onShareMap_acts _ (mapPut_asks _ _ _))
            (shareBlobFree_acts _ _)) (kobjectIncref_acts hk _)

section

variable (hk : .act ∈ K)

include hk in
lemma shareCoObj_acts (sh : Kobj) (id : ℕ) (type : Option KobjType) :
    Acts K b (shareCoObj sh id type) :=
  .derefAs fun _ => .bind (shareMapGet_acts _ _) fun _ =>
    .bind (getInfo_acts _ _) fun _ => .deref fun _ => .ite (.raise _) <|
      .bind (shareBlobAlloc_acts _) fun _ => .seq (setInfo_acts _ _ _) <|
        .seq (pushAction_acts hk _) (.done _)

include hk in
lemma shareRemoveObj_acts (sh : Kobj) (id : ℕ) : Acts K b (shareRemoveObj sh id) := by
  refine .derefAs fun _ => .bind (shareMapGet_acts _ _) fun _ =>
    .bind (getInfo_acts _ _) fun i => ?_
  generalize (i.siCnt + (word32 - 1)) % word32 = cnt
  exact .seq (setInfo_acts _ _ _) <| .ite (.bind (shareBlobAlloc_acts _) fun _ =>
      .bind (.attempt (onShareMap_acts _ (onTable_asks _))) fun
        | .ok _ => pushAction_acts hk _
        | .error _ => .halt _)
    (.done _)

/-! ### Share maps -/

lemma sharemapGet_acts (ps : Kobj) (id : ℕ) : Acts K b (sharemapGet ps id) :=
  .derefAs fun _ => onSharemap_acts _ (onTable_asks _)

include hk in
lemma processorCoObj_acts (ps : Kobj) (r : SobjRef) (type : Option KobjType) :
    Acts K b (processorCoObj ps r type) :=
  .bind (sharemapGet_acts _ _) fun _ => .ite (.done _) (shareCoObj_acts hk _ _ _)

include hk in
lemma processorRemoveObj_acts (ps : Kobj) (r : SobjRef) : Acts K b (processorRemoveObj ps r) :=
  .bind (sharemapGet_acts _ _) fun _ => shareRemoveObj_acts hk _ _

end

lemma sharemapAdd_acts (hk : .ref ∈ K) (ps sh : Kobj) : Acts K b (sharemapAdd ps sh) :=
  .derefAs fun _ => .derefAs fun _ => .ite (.raise _) <|
    .seq (onSharemap_acts _ (mapPut_asks _ _ _)) (kobjectIncref_acts hk _)

lemma processorImportObj_acts (hk : .ref ∈ K) (ps : Kobj) (sh : ℕ) (ko : Kobj) :
    Acts K b (processorImportObj ps sh ko) :=
  .bind (sharemapGet_acts _ _) fun _ => shareImportObj_acts hk _ _

/-! ### Page tables and mappings -/

lemma putInterior_acts (a : Kobj) (va : ℕ) (c : Kobj) : Acts K b (putInterior a va c) :=
  .derefAs fun _ => .bind_val (derefAs_acts _ _) fun _ ho =>
    .bind (.need _ _) fun _ => .bind (.need _ _) fun _ => onPagemap_acts _ <|
      .ite (focusIn_asks (asArchPutinteriorLow_asks ho.koPid va c _))
        (focusIn_asks (asArchPutinterior_asks ho.koPid va c _))

lemma pgdirWalkIn_acts (h : b.ok pid) (a : Kobj) (va : ℕ) : Acts K b (pgdirWalkIn a va pid) :=
  .derefAs fun _ => .bind (.need _ _) fun _ => .seq (.check _) <|
    onPagemap_acts _ <|
      .ite (focusIn_asks (pgdirWalk_asks h va 1)) (focusIn_asks (pgdirWalk_asks h va 3))

lemma asArchPutpage_acts (h : b.ok pid) (a : Kobj) (va : ℕ) (e : Pte) :
    Acts K b (asArchPutpage a va pid e) := by
  have hlinked : ∀ c, Acts K b (pgdirWalkLinked c va pid) := fun c =>
    .derefAs fun _ => .bind (.need _ _) fun _ =>
      .ite (.halt _) (pgdirWalkIn_acts h c va)
  refine .bind (pgdirWalkIn_acts h a va) fun r => ?_
  cases r with
  | none => exact modTree_acts fun _ => rfl
  | some c => exact .bind (hlinked c) fun _ => modTree_acts fun _ => rfl

lemma setMapList_acts (ko : Kobj) (l : List AmRef) : Acts K b (setMapList ko l) :=
  .of (modObj_does fun _ => by split <;> exact ⟨rfl, id⟩) (setMapList_asks ko l)

lemma amlRemove_acts (ko : Kobj) (am : AmRef) : Acts K b (amlRemove ko am) :=
  .bind (amlGetList_acts _) fun _ => setMapList_acts _ _

lemma amlInsert_acts (ko : Kobj) (r : AmRef) (am : AddressMapping) :
    Acts K b (amlInsert ko r am) :=
  .bind (amlGetList_acts _) fun _ => .derefAs fun _ =>
    .seq (modTree_acts fun _ => rfl) (setMapList_acts _ _)

lemma clearKobj_acts (r : AmRef) : Acts K b (clearKobj r) := modTree_acts fun _ => rfl

/-- What the cache holds is dropped while it is still there. -/
lemma kobjCacheFlush_acts (a : Kobj) : Acts K b (kobjCacheFlush a) := by
  refine .of (fun s _ => state_of_wp (I := ReflTransGen (Effect K) s) ?_) (.bind (derefAs_asks _ _)
    fun _ => .ite (.seq (kobjectDecref_asks _) (modTree_asks _ _)) (.done _))
  simp only [kobjCacheFlush, wp_rules, wp_derefAs]
  refine ⟨fun _ _ => ⟨fun hc => ?_, fun _ => .refl⟩, fun _ _ => .refl, fun _ => .refl⟩
  have hdrop : ReflTransGen (Effect K) s (kobjectDecref (s.obj a).tree.atObj.ko s).2 :=
    .single (.decref (.inr (.inr ⟨a, hc, rfl⟩)) (kobjectDecref_decrefs _ s))
  refine wp_imp (wp_final _ s) (fun _ t ht => ?_) (fun _ t ht => ht ▸ hdrop)
    fun _ t ht => ht ▸ hdrop
  exact (ht ▸ hdrop).tail (.quiet (.modObj (s := t) ⟨rfl, fun _ => rfl⟩ t.forest))

lemma atTlbflushOthers_acts (a : Kobj) : Acts K b (atTlbflushOthers a) :=
  .derefAs fun _ => .ite
    (.forEach (fun _ => .bind (getAm_acts _) fun _ => .derefAs fun _ =>
      .check _) _)
    (.done _)

lemma atInvalidateRange_acts (a : Kobj) (first last : ℕ) :
    Acts K b (atInvalidateRange a first last) :=
  .derefAs fun _ => .seq (.check _) <| .bind (.need _ _) fun _ =>
    .bind .state fun _ => .ite (.halt _) (modTree_acts fun _ => rfl)

lemma atInvalidateAddrmap_acts (a : Kobj) (r : AmRef) : Acts K b (atInvalidateAddrmap a r) :=
  .seq (kobjCacheFlush_acts _) <| .bind (getAm_acts _) fun _ => .ite
    (.seq (atTlbflushOthers_acts _) <| .seq (atInvalidateRange_acts _ _ _) (clearKobj_acts _))
    (.done _)

lemma amlLoop_acts (ko : Kobj) (sel : AddressMapping → Bool) : Acts K b (amlLoop ko sel) :=
  .bind (amlGetList_acts _) fun _ => .forEach (fun _ => .bind (getAm_acts _) fun _ =>
    .seq (.check _) <| .ite (.seq (amlRemove_acts _ _) (atInvalidateAddrmap_acts _ _)) (.done _)) _

end Corey.Kern
