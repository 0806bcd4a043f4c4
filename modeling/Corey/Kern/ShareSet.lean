import Corey.Kern.Invalidation
import Corey.Kern.Lookup
import Corey.Kern.MapTables

/-!
The shares of a processor as a set (`kern/sharemap.c`).

Adding a share takes a reference to it, and removing it or clearing the sharemap gives the
reference back. A share that is added again must be met by the insertion, or it is entered
twice.
-/

namespace Corey.Kern

open Function Corey.Comp Corey.Mem Machine

variable {ps : Kobj} {s s' t : Machine}

def Machine.sharemap (s : Machine) (ps : Kobj) : Map Kobj := (s.obj ps).ps.psSharemap.map

/-! ### Calls on one sharemap -/

inductive SmOp
  | add (sh : Kobj)
  | remove (id : ℕ)
  | clear

/-- While a sharemap is being cleared its lock is held, and a processor that is to be halted
would wait for it. -/
def haltLocked (ps : Kobj) : KM Bool := do
  let sched ← processorSched
  if sched = some ps then halt .spin else processorHalt ps

def SmOp.body (ps : Kobj) : SmOp → KM Unit
  | .add sh => sharemapAdd ps sh
  | .remove id => sharemapRemove processorHalt ps id
  | .clear => sharemapClear haltLocked ps

/-- The sharemap of the processor `ps`, from a state in which it has just been initialised. -/
def sharemaps (ps : Kobj) (start : Machine) : System Machine SmOp where
  init s := s = start ∧ (s.obj ps).live = true ∧ (s.obj ps).koType = .processor ∧
    (s.sharemap ps).Fresh
  step op := (op.body ps).next

/-! ### What stays the same while a share is lost -/

/-- Objects stay what they are, lookup caches are not filled, and `d` says how many references to
an object that is in no lookup cache are given up. -/
structure Drops (d : Kobj → ℕ) (s s' : Machine) : Prop where
  kin : ∀ p, Kin (s.obj p) (s'.obj p)
  cached : ∀ q, s'.Cached q → s.Cached q
  refs : ∀ q, ¬ s.Cached q → (s'.obj q).koRef + d q = (s.obj q).koRef

/-- The processor `ps` keeps its shares and its address tree. -/
structure SameShares (ps : Kobj) (d : Kobj → ℕ) (s s' : Machine) : Prop extends Drops d s s' where
  map : s'.sharemap ps = s.sharemap ps
  psAt : (s'.obj ps).ps.psAt = (s.obj ps).ps.psAt

/-- The shares of a processor, as often as they are entered. -/
def Machine.held (s : Machine) (ps : Kobj) : List Kobj :=
  (s.sharemap ps).table.toList.map Prod.snd

/-- The processor has been halted, has left its address tree and has lost its shares. -/
structure Halted (ps : Kobj) (s s' : Machine) : Prop extends Drops (s.held ps).count s s' where
  fresh : (s'.sharemap ps).Fresh
  had : (s.obj ps).ps.psAt ≠ none
  left : (s'.obj ps).ps.psAt = none

def Loses (ps : Kobj) (s s' : Machine) : Prop := SameShares ps (fun _ => 0) s s' ∨ Halted ps s s'

variable {d d' e : Kobj → ℕ} {p : Kobj} {f : Kobject → Kobject}

namespace Drops

lemma refl (s : Machine) : Drops (fun _ => 0) s s :=
  ⟨fun _ => kin_refl _, fun _ => id, fun _ _ => rfl⟩

lemma trans (h : Drops d s t) (h' : Drops d' t s') (he : ∀ q, e q = d q + d' q) :
    Drops e s s' where
  kin p := (h.kin p).trans (h'.kin p)
  cached q hq := h.cached q (h'.cached q hq)
  refs q hq := by
    have h1 := h.refs q hq
    have h2 := h'.refs q fun hc => hq (h.cached q hc)
    have h3 := he q
    omega

lemma modObj (hk : Kin (s.obj p) (f (s.obj p))) (hr : (f (s.obj p)).koRef = (s.obj p).koRef)
    (hc : (f (s.obj p)).tree.atObj = (s.obj p).tree.atObj) :
    Drops (fun _ => 0) s (s.modObj p f) :=
  ⟨fun q => kin_modObj p q hk, fun _ => cached_modObj hc,
    fun q _ => modObj_eq (g := Kobject.koRef) hr q⟩

/-- Changes that concern neither counts nor lookup caches. -/
lemma after (h : Drops d s t) (hk : Kin (t.obj p) (f (t.obj p)))
    (hr : (f (t.obj p)).koRef = (t.obj p).koRef)
    (hc : (f (t.obj p)).tree.atObj = (t.obj p).tree.atObj) : Drops d s (t.modObj p f) :=
  h.trans (.modObj hk hr hc) fun _ => rfl

end Drops

namespace SameShares

lemma refl (s : Machine) : SameShares ps (fun _ => 0) s s := ⟨.refl s, rfl, rfl⟩

lemma trans (h : SameShares ps d s t) (h' : SameShares ps d' t s') (he : ∀ q, e q = d q + d' q) :
    SameShares ps e s s' :=
  ⟨h.toDrops.trans h'.toDrops he, h'.map.trans h.map, h'.psAt.trans h.psAt⟩

/-- The rule for steps that give up nothing. -/
lemma step (h : SameShares ps (fun _ => 0) t s') (h' : SameShares ps d s t) :
    SameShares ps d s s' := h'.trans h fun _ => rfl

lemma of_flushes (h : Flushes s s') : SameShares ps (fun _ => 0) s s' where
  kin p := by
    rw [← (h.obj p).rest]
    exact kin_refl _
  cached := h.cached
  refs := h.refs
  map := by rw [sharemap, (h.obj ps).ps, sharemap]
  psAt := by rw [(h.obj ps).ps]

lemma modObj (hk : Kin (s.obj p) (f (s.obj p))) (hr : (f (s.obj p)).koRef = (s.obj p).koRef)
    (hc : (f (s.obj p)).tree.atObj = (s.obj p).tree.atObj)
    (hm : (f (s.obj p)).ps.psSharemap.map = (s.obj p).ps.psSharemap.map)
    (ha : (f (s.obj p)).ps.psAt = (s.obj p).ps.psAt) :
    SameShares ps (fun _ => 0) s (s.modObj p f) :=
  ⟨.modObj hk hr hc, modObj_eq (g := fun o => o.ps.psSharemap.map) hm ps,
    modObj_eq (g := fun o => o.ps.psAt) ha ps⟩

end SameShares

lemma Loses.trans (h : Loses ps s t) (h' : Loses ps t s') : Loses ps s s' := by
  rcases h with h | h <;> rcases h' with h' | h'
  · exact .inl (h'.step h)
  · have hheld : t.held ps = s.held ps := by rw [held, h.map, held]
    exact .inr ⟨h.toDrops.trans h'.toDrops fun q => by rw [hheld, Nat.zero_add], h'.fresh,
      h.psAt ▸ h'.had, h'.left⟩
  · exact .inr ⟨h.toDrops.trans h'.toDrops fun _ => rfl, h'.map ▸ h.fresh, h.had,
      h'.psAt.trans h.left⟩
  · exact absurd h.left h'.had

section

variable (ps)

lemma mapFree_quiet {V : Type} (q : Kobj) (x : Map V × Forest TreeId) :
    (mapFree (mapBack q)).Leaves (fun y => y.1 = x.1) x := by
  simp only [mapFree, wp_rules, wp_shared]
  exact wp_of_forall (fun _ _ => trivial) (fun _ _ => rfl) fun _ _ => trivial

lemma sharemapFree_same : Steps (SameShares ps fun _ => 0) (sharemapFree ps) := by
  refine .of_wp fun s => ?_
  have hset : ∀ y : Map Kobj × Forest TreeId, y.1 = s.sharemap ps →
      SameShares ps (fun _ => 0) s (modObj ps (fun o => { o with ps := { o.ps with
        psSharemap := { o.ps.psSharemap with map := y.1 } } }) { s with forest := y.2 }) := by
    intro y hy
    have hf : SameShares ps (fun _ => 0) s { s with forest := y.2 } :=
      ⟨⟨fun _ => kin_refl _, fun _ => id, fun _ _ => rfl⟩, rfl, rfl⟩
    exact SameShares.step (.modObj (kin_refl _) rfl rfl hy rfl) hf
  rw [sharemapFree, onSharemap, wp_zoom]
  exact wp_mono (mapFree_quiet ps _) (fun _ y hy => hset y hy) fun _ y hy => hset y hy

lemma kobjectDecref_same (sh : Kobj) (s : Machine) : wp (kobjectDecref sh)
    (fun _ => SameShares ps (fun q => if q = sh then 1 else 0) s) .any s := by
  have hmod : (s.obj sh).koRef ≠ 0 → SameShares ps (fun q => if q = sh then 1 else 0) s
      (s.modObj sh fun o => { o with koRef := o.koRef - 1 }) := fun hr =>
    ⟨⟨fun p => kin_modObj sh p (kin_refl _), fun _ => cached_modObj rfl, fun q _ => by
        by_cases hq : q = sh
        · subst hq
          rw [modObj_self, if_pos rfl]
          exact Nat.sub_add_cancel (Nat.pos_of_ne_zero hr)
        · rw [modObj_of_ne hq, if_neg hq, Nat.add_zero]⟩,
      modObj_eq (g := fun o => o.ps.psSharemap.map) rfl ps,
      modObj_eq (g := fun o => o.ps.psAt) rfl ps⟩
  simp only [kobjectDecref, kobjectGcCollect, wp_rules, wp_deref, wp_archCpu, implies_true,
    and_true]
  intro _ hr
  have h := hmod hr
  exact ⟨fun _ => ⟨⟨h.kin, h.cached, h.refs⟩, h.map, h.psAt⟩, fun _ => h⟩

variable {haltPs : Kobj → KM Bool} (hh : Steps (SameShares ps fun _ => 0) (haltPs ps))

include hh in
/-- Each of the shares is given up once. -/
lemma dropShares_ok (l : List (ℕ × Kobj)) (s : Machine) :
    wp (forEach (fun e : ℕ × Kobj => do
      shareScopeChange haltPs e.2 ps
      kobjectDecref e.2) l)
      (fun _ => SameShares ps (fun q => (l.map Prod.snd).count q) s) .any s := by
  induction l generalizing s with
  | nil => exact .refl s
  | cons e l ih =>
    rw [forEach, wp_bind, wp_bind]
    refine wp_post ((shareScopeChange_flushes (fun _ _ => .of_flushes) hh e.2).wp_any
      (fun _ _ => .step) (SameShares.refl s)) fun _ t ht => ?_
    refine wp_post (kobjectDecref_same ps e.2 t) fun _ u hu => ?_
    refine wp_post (ih u) fun _ w hw => ?_
    refine (ht.trans hu fun _ => (Nat.zero_add _).symm).trans hw fun q => ?_
    by_cases hq : q = e.2
    · subst hq
      simp [Nat.add_comm]
    · simp [hq, List.count_cons_of_ne (Ne.symm hq)]

include hh in
lemma sharemapClear_ok (s : Machine) :
    wp (sharemapClear haltPs ps) (fun _ s' => ∃ t, SameShares ps (s.held ps).count s t ∧
      s' = t.modObj ps fun o => { o with ps := { o.ps with psSharemap := { o.ps.psSharemap with
        map := mapInit o.ps.psSharemap.map.pid } } }) .any s := by
  simp only [sharemapClear, wp_bind, wp_derefAs, wp_modProcessor, implies_true, and_true]
  intro _ _
  refine wp_post (dropShares_ok ps hh _ s) fun _ t ht => ?_
  exact wp_post ((sharemapFree_same ps).wp_any (fun _ _ => .step) ht) fun _ u hu => ⟨u, hu, rfl⟩

lemma processorHalt_loses : Steps (Loses ps) (processorHalt ps) := by
  refine (processorHalt_errless ps).steps fun s => ?_
  simp only [processorHalt, atDetach, wp_rules, wp_derefAs, wp_processorSched, wp_modTree,
    wp_modProcessor, implies_true, and_true]
  intro _ _
  refine ⟨fun _ => .inl (.modObj (kin_refl _) rfl rfl rfl rfl), ?_⟩
  intro _ a ha _ _ _ _ _
  refine wp_post (sharemapClear_ok ps (.halt _) _) fun _ u hu => ?_
  obtain ⟨t, ht, rfl⟩ := hu
  have hdetach : Drops (fun _ => 0) s (s.modObj a fun o => { o with tree := { o.tree with
      atPsList := o.tree.atPsList.erase ps } }) := .modObj (kin_refl _) rfl rfl
  have hout := (hdetach.after (p := ps) (f := fun o => { o with ps := { o.ps with
    psAt := none, psAtref := {} } }) (kin_refl _) rfl rfl).trans ht.toDrops
      (e := (s.held ps).count) fun q => by
        rw [Nat.zero_add]
        simp only [held, sharemap, modObj_self]
        rw [modObj_eq (g := fun o => o.ps.psSharemap.map) rfl ps]
  have hclear := hout.after (p := ps) (f := fun o => { o with ps := { o.ps with
    psSharemap := { o.ps.psSharemap with map := mapInit o.ps.psSharemap.map.pid } } })
    (kin_refl _) rfl rfl
  refine .inr ⟨Drops.after (t := { Machine.modObj ps _ t with processors := _ })
    ⟨hclear.kin, hclear.cached, hclear.refs⟩ (kin_refl _) rfl rfl, ?_, ?_, ?_⟩
  · simp only [sharemap, modObj_self]
    exact ⟨rfl, rfl, rfl⟩
  · rw [ha]
    exact Option.some_ne_none a
  · have hnone : (t.obj ps).ps.psAt = none := by
      rw [ht.psAt, modObj_self]
    simp only [modObj_self, hnone]

lemma haltLocked_errless (q : Kobj) : Errless (haltLocked q) :=
  .bind processorSched_errless fun _ => .ite (.halt _) (processorHalt_errless q)

lemma haltLocked_same : Steps (SameShares ps fun _ => 0) (haltLocked ps) := by
  refine (haltLocked_errless ps).steps fun s => ?_
  simp only [haltLocked, processorHalt, wp_rules, wp_processorSched, wp_halt, wp_derefAs,
    wp_modProcessor, implies_true, true_and, and_true]
  intro hne _ _
  exact ⟨fun _ => .modObj (kin_refl _) rfl rfl rfl rfl, fun hno => absurd hne hno⟩

end

/-! ### The set -/

variable {f : Finmap fun _ : ℕ => Kobj} {sh : Kobj} {key : ℕ}

/-- The sharemap of `ps` holds the shares of `f` under their ids. -/
structure HoldsSet (ps : Kobj) (s : Machine) (f : Finmap fun _ : ℕ => Kobj) : Prop where
  live : (s.obj ps).live = true
  type : (s.obj ps).koType = .processor
  sized : Sized (s.sharemap ps)
  holds : Holds (s.sharemap ps).table f
  keys : ∀ k sh, f.lookup k = some sh → (s.obj sh).koId = k

/-- The share is in the set under its own id. -/
def Has (s : Machine) (f : Finmap fun _ : ℕ => Kobj) (sh : Kobj) : Prop :=
  f.lookup (s.obj sh).koId = some sh
  deriving Decidable

namespace HoldsSet

variable {g : Finmap fun _ : ℕ => Kobj}

lemma moved (h : HoldsSet ps s f) (hk : ∀ p, Kin (s.obj p) (s'.obj p))
    (hs : Sized (s'.sharemap ps)) (hh : Holds (s'.sharemap ps).table g)
    (hg : ∀ k sh, g.lookup k = some sh → (s.obj sh).koId = k) : HoldsSet ps s' g :=
  ⟨(hk ps).1.trans h.live, (hk ps).2.2.trans h.type, hs, hh,
    fun k sh hsh => (hk sh).2.1.trans (hg k sh hsh)⟩

lemma same (h : HoldsSet ps s f) (hk : ∀ p, Kin (s.obj p) (s'.obj p))
    (hm : s'.sharemap ps = s.sharemap ps) : HoldsSet ps s' f :=
  h.moved hk (hm ▸ h.sized) (hm ▸ h.holds) h.keys

lemma init (hlive : (s.obj ps).live = true) (htype : (s.obj ps).koType = .processor)
    (hm : (s.sharemap ps).Fresh) : HoldsSet ps s ∅ :=
  ⟨hlive, htype, hm.sized, hm.holds, fun k sh h => by simp at h⟩

lemma count (h : HoldsSet ps s f) (sh : Kobj) :
    (s.held ps).count sh = if Has s f sh then 1 else 0 := by
  have hkey : ∀ e ∈ (s.sharemap ps).table.toList, (s.obj e.2).koId = e.1 := fun e he =>
    h.keys e.1 e.2 (h.holds.mem_toList.mp he)
  have hnodup : ((s.sharemap ps).table.toList.map Prod.snd).Nodup := by
    refine List.Nodup.of_map (fun sh => (s.obj sh).koId) ?_
    have heq : (s.sharemap ps).table.toList.map ((fun sh => (s.obj sh).koId) ∘ Prod.snd) =
        (s.sharemap ps).table.toList.map Prod.fst := List.map_congr_left hkey
    rw [List.map_map, heq]
    exact h.holds.nodup_toList
  have hmem : sh ∈ (s.sharemap ps).table.toList.map Prod.snd ↔ Has s f sh := by
    constructor
    · intro hsh
      obtain ⟨e, he, rfl⟩ := List.mem_map.mp hsh
      rw [Has, hkey e he]
      exact h.holds.mem_toList.mp he
    · intro hsh
      exact List.mem_map.mpr ⟨_, h.holds.mem_toList.mpr hsh, rfl⟩
  rw [held, hnodup.count]
  exact if_congr hmem rfl rfl

end HoldsSet

lemma has_kin (hk : ∀ p, Kin (s.obj p) (s'.obj p)) : Has s' f sh ↔ Has s f sh := by
  rw [Has, (hk sh).2.1, Has]

lemma has_empty : ¬ Has s ∅ sh := by
  simp [Has]

lemma has_insert {q : Kobj} (hf : (s.obj sh).koId ∉ f) :
    Has s (f.insert (s.obj sh).koId sh) q ↔ q = sh ∨ Has s f q := by
  rw [Has, Has]
  by_cases hq : (s.obj q).koId = (s.obj sh).koId
  · have hno : f.lookup (s.obj sh).koId = none := Finmap.lookup_eq_none.mpr hf
    rw [hq, Finmap.lookup_insert, hno]
    simp [eq_comm]
  · have hne : q ≠ sh := fun h => hq (by rw [h])
    rw [Finmap.lookup_insert_of_ne _ hq]
    simp [hne]

lemma has_erase {q : Kobj} (h : HoldsSet ps s f) (hsh : f.lookup key = some sh) :
    Has s (f.erase key) q ↔ q ≠ sh ∧ Has s f q := by
  have hid := h.keys key sh hsh
  rw [Has, Has]
  by_cases hq : (s.obj q).koId = key
  · rw [hq, Finmap.lookup_erase, hsh]
    simp [eq_comm]
  · have hne : q ≠ sh := fun h => hq (by rw [h, hid])
    rw [Finmap.lookup_erase_ne hq]
    simp [hne]

/-! ### One call -/

/-- The sharemap's mask refuses the share, or it is absent, or the insertion meets it. -/
def AddLands (ps : Kobj) (s : Machine) (sh : Kobj) : Prop :=
  (s.obj sh).sh.shMask &&& (s.obj ps).ps.psSharemap.mask ≠ (s.obj sh).sh.shMask ∨
    MapLands (mapBack ps) (s.sharemap ps, s.forest) (s.obj sh).koId

/-- Of the calls only an addition can go wrong. -/
def SmOp.Lands (ps : Kobj) (s : Machine) : SmOp → Prop
  | .add sh => AddLands ps s sh
  | _ => True

instance (s : Machine) (sh : Kobj) : Decidable (AddLands ps s sh) :=
  inferInstanceAs (Decidable (_ ∨ _ ∨ _ ∧ _))

instance (s : Machine) (op : SmOp) : Decidable (op.Lands ps s) := by
  cases op <;> unfold SmOp.Lands <;> infer_instance

/-- The state of the processor with another map and other memory. -/
def Machine.setSharemap (ps : Kobj) (r : Map Kobj × Forest TreeId) (s : Machine) : Machine :=
  Machine.modObj ps (fun o => { o with ps := { o.ps with
    psSharemap := { o.ps.psSharemap with map := r.1 } } }) { s with forest := r.2 }

section

variable {r : Map Kobj × Forest TreeId}

lemma setSharemap_kin (p : Kobj) : Kin (s.obj p) ((s.setSharemap ps r).obj p) :=
  kin_modObj (s := { s with forest := r.2 }) ps p (kin_refl _)

lemma setSharemap_map : (s.setSharemap ps r).sharemap ps = r.1 := by
  simp only [setSharemap, sharemap, modObj_self]

lemma setSharemap_psAt : ((s.setSharemap ps r).obj ps).ps.psAt = (s.obj ps).ps.psAt := by
  simp only [setSharemap, modObj_self]

lemma setSharemap_drops : Drops (fun _ => 0) s (s.setSharemap ps r) :=
  Drops.after (t := { s with forest := r.2 }) ⟨fun _ => kin_refl _, fun _ => id, fun _ _ => rfl⟩
    (kin_refl _) rfl rfl

end

lemma wp_onSharemap {α : Type} {m : MapM TreeId Kobj α} {Q : α → Machine → Prop}
    {X : Exits Errno Machine} :
    wp (onSharemap ps m) Q X s ↔ wp m (fun a r => Q a (s.setSharemap ps r))
      (X.comap fun r => s.setSharemap ps r) (s.sharemap ps, s.forest) := wp_zoom

lemma HoldsSet.setSharemap {r : Map Kobj × Forest TreeId} {g : Finmap fun _ : ℕ => Kobj}
    (h : HoldsSet ps s f) (hs : Sized r.1) (hh : Holds r.1.table g)
    (hg : ∀ k sh, g.lookup k = some sh → (s.obj sh).koId = k) :
    HoldsSet ps (s.setSharemap ps r) g :=
  h.moved setSharemap_kin (setSharemap_map ▸ hs) (setSharemap_map ▸ hh) hg

/-- What a call does: it makes the set `f` the set `g`, and each reference is taken or given up
with its share. -/
structure Turns (ps : Kobj) (f : Finmap fun _ : ℕ => Kobj) (s : Machine)
    (g : Finmap fun _ : ℕ => Kobj) (s' : Machine) : Prop where
  kin : ∀ p, Kin (s.obj p) (s'.obj p)
  cached : ∀ q, s'.Cached q → s.Cached q
  set : HoldsSet ps s' g
  refs : ∀ q, ¬ s.Cached q → (s'.obj q).koRef + (if Has s f q then 1 else 0) =
    (s.obj q).koRef + if Has s' g q then 1 else 0

lemma Turns.trans {g k : Finmap fun _ : ℕ => Kobj} (h : Turns ps f s g t) (h' : Turns ps g t k s') :
    Turns ps f s k s' where
  kin p := (h.kin p).trans (h'.kin p)
  cached q hq := h.cached q (h'.cached q hq)
  set := h'.set
  refs q hq := by
    have h1 := h.refs q hq
    have h2 := h'.refs q fun hc => hq (h.cached q hc)
    omega

lemma Drops.turns {g : Finmap fun _ : ℕ => Kobj} (h : Drops d s s') (hset : HoldsSet ps s' g)
    (hd : ∀ q, (if Has s f q then 1 else 0) = d q + if Has s g q then 1 else 0) :
    Turns ps f s g s' := by
  refine ⟨h.kin, h.cached, hset, fun q hq => ?_⟩
  have hrefs := h.refs q hq
  have hgiven := hd q
  simp only [has_kin h.kin]
  omega

lemma sharemapAdd_spec (h : HoldsSet ps s f) (hok : AddLands ps s sh) :
    (sharemapAdd ps sh).Leaves (fun s' => ∃ g, Turns ps f s g s') s := by
  simp only [Leaves, sharemapAdd, kobjectIncref, wp_rules, wp_derefAs, wp_onSharemap, wp_deref,
    implies_true, and_true]
  intro _ _ _ _
  refine ⟨fun _ => ⟨f, (Drops.refl s).turns h fun _ => (Nat.zero_add _).symm⟩, fun hmask => ?_⟩
  refine wp_mono (mapPut_holds h.sized h.holds (fun _ => hok.resolve_left fun hno => hmask hno) sh)
    (fun _ r hr => ?_) fun _ r hr => ?_
  · have hkeys : ∀ k sh', (f.insert (s.obj sh).koId sh).lookup k = some sh' →
        (s.obj sh').koId = k := by
      intro k sh' hsh'
      rcases lookup_insert_some.mp hsh' with ⟨rfl, rfl⟩ | ⟨-, hsh'⟩
      · rfl
      · exact h.keys k sh' hsh'
    have hset := h.setSharemap hr.2.1 hr.2.2 hkeys
    have hkin : ∀ p, Kin ((s.setSharemap ps r).obj p) (((s.setSharemap ps r).modObj sh fun o =>
        { o with koRef := o.koRef + 1 }).obj p) := fun p => kin_modObj sh p (kin_refl _)
    refine fun _ => ⟨_, fun p => (setSharemap_kin p).trans (hkin p),
      fun q hq => setSharemap_drops.cached q (cached_modObj rfl hq),
      hset.same hkin (modObj_eq (g := fun o => o.ps.psSharemap.map) rfl ps), fun q hq => ?_⟩
    have hold : ¬ Has s f sh := fun h => hr.1 (Finmap.mem_of_lookup_eq_some h)
    have hdrops : Drops (fun _ => 0) s (s.setSharemap ps r) := setSharemap_drops
    have hsame := hdrops.refs q hq
    rw [incref_koRef, ← hsame]
    simp only [has_kin fun p => (setSharemap_kin p).trans (hkin p), has_insert hr.1]
    by_cases hq : q = sh
    · subst hq
      simp [hold]
    · simp [hq]
  · exact ⟨f, setSharemap_drops.turns (h.setSharemap hr.1 hr.2 h.keys)
      fun _ => (Nat.zero_add _).symm⟩

lemma setSharemap_self : s.setSharemap ps (s.sharemap ps, s.forest) = s := by
  have hobj : update s.obj ps (s.obj ps) = s.obj := update_eq_self ps s.obj
  show { s with obj := update s.obj ps (s.obj ps) } = s
  rw [hobj]

lemma sharemapGet_spec (h : HoldsSet ps s f) (key : ℕ) :
    wp (sharemapGet ps key) (fun sh s' => f.lookup key = some sh ∧ s' = s)
      ⟨fun _ s' => key ∉ f ∧ s' = s, fun _ _ => False⟩ s := by
  simp only [sharemapGet, wp_bind, wp_derefAs, wp_onSharemap, h.live, h.type]
  refine ⟨fun _ _ => ?_, fun _ hne => hne rfl, by simp⟩
  refine wp_mono (mapGet_holds h.holds key) (fun sh r hr => ?_) fun _ r hr => ?_
  · obtain ⟨rfl, hv⟩ := hr
    exact ⟨hv, setSharemap_self⟩
  · obtain ⟨rfl, hno⟩ := hr
    exact ⟨hno, setSharemap_self⟩

lemma sharemapRemove_spec (h : HoldsSet ps s f) (key : ℕ) :
    wp (sharemapRemove processorHalt ps key)
      (fun _ s' => ∃ g, Turns ps f s g s' ∧ g.lookup key = none)
      ⟨fun _ s' => s' = s, fun _ _ => True⟩ s := by
  simp only [sharemapRemove, wp_bind, wp_attempt, wp_onSharemap]
  refine wp_mono (sharemapGet_spec h key) (fun sh t ht => ?_) fun _ _ h => h.2
  obtain ⟨hsh, rfl⟩ := ht
  have hhad : Has t f sh := by
    rw [Has, h.keys key sh hsh]
    exact hsh
  refine wp_of_never (mapErase_holds h.sized h.holds (Finmap.mem_of_lookup_eq_some hsh))
    fun _ r hr => ?_
  have hout : HoldsSet ps (t.setSharemap ps r) (f.erase key) :=
    h.setSharemap hr.1 hr.2.1 fun k sh hl => h.keys k sh (lookup_erase_some.mp hl).2
  have herr : Errless (do
      shareScopeChange processorHalt sh ps
      kobjectDecref sh) :=
    .seq (shareScopeChange_errless processorHalt_errless _ _) (kobjectDecref_errless _)
  refine wp_bind.mp (herr.wp_both (wp_bind.mpr ?_))
  refine wp_post ((shareScopeChange_flushes (fun _ _ h => .inl (.of_flushes h))
    (processorHalt_loses ps) sh).wp_any (fun _ _ h h' => Loses.trans h' h)
      (.inl (.refl (t.setSharemap ps r)))) fun _ v hv => ?_
  refine wp_post (kobjectDecref_same ps sh v) fun _ w hw => ?_
  rcases hv with hv | hv
  · -- only the share itself goes
    refine ⟨f.erase key, (setSharemap_drops.trans (hv.toDrops.trans hw.toDrops fun _ => rfl)
      fun _ => rfl).turns (hout.same (fun p => (hv.kin p).trans (hw.kin p))
        (hw.map.trans hv.map)) fun q => ?_, Finmap.lookup_erase key f⟩
    simp only [has_erase h hsh]
    by_cases hq : q = sh
    · subst hq
      simp [hhad]
    · simp [hq]
  · -- the processor is halted, and all shares go
    have hfresh : (w.sharemap ps).Fresh := hw.map ▸ hv.fresh
    have hkin : ∀ p, Kin (t.obj p) (w.obj p) := fun p =>
      ((setSharemap_kin p).trans (hv.kin p)).trans (hw.kin p)
    refine ⟨∅, (setSharemap_drops.trans (hv.toDrops.trans hw.toDrops fun _ => rfl)
      fun _ => rfl).turns (.init ((hkin ps).1.trans h.live) ((hkin ps).2.2.trans h.type) hfresh)
        fun q => ?_, Finmap.lookup_empty key⟩
    simp only [hout.count q, has_kin setSharemap_kin, has_erase h hsh, has_empty]
    by_cases hq : q = sh
    · subst hq
      simp [hhad]
    · simp [hq]

lemma sharemapClear_spec (h : HoldsSet ps s f) :
    (sharemapClear haltLocked ps).Leaves (fun s' => ∃ g, Turns ps f s g s') s := by
  refine (sharemapClear_errless haltLocked_errless ps).wp_both ?_
  refine wp_post (sharemapClear_ok ps (haltLocked_same ps) s) fun _ s' hs' => ?_
  obtain ⟨t, ht, rfl⟩ := hs'
  have hclear := ht.toDrops.after (p := ps) (f := fun o => { o with ps := { o.ps with
    psSharemap := { o.ps.psSharemap with map := mapInit o.ps.psSharemap.map.pid } } })
    (kin_refl _) rfl rfl
  refine ⟨∅, hclear.turns (.init ((hclear.kin ps).1.trans h.live)
    ((hclear.kin ps).2.2.trans h.type) ?_) fun q => ?_⟩
  · simp only [sharemap, modObj_self]
    exact ⟨rfl, rfl, rfl⟩
  · simp only [h.count q, has_empty, if_false, Nat.add_zero]

/-! ### Whole runs -/

lemma turns_of_reach {start : Machine}
    (h : (sharemaps ps start).Reach (fun s op => op.Lands ps s) s) :
    ∃ f, Turns ps ∅ start f s := by
  refine h.invariant (I := fun s => ∃ f, Turns ps ∅ start f s) (fun s hs => ?_)
    fun s op s' hs hok hstep => ?_
  · obtain ⟨rfl, hlive, htype, hfresh⟩ := hs
    exact ⟨∅, (Drops.refl s).turns (.init hlive htype hfresh) fun _ => (Nat.zero_add _).symm⟩
  · obtain ⟨f, hf⟩ := hs
    have hnext : ∃ g, Turns ps f s g s' := by
      refine next_of_wp (I := fun s' => ∃ g, Turns ps f s g s') ?_ hstep
      cases op with
      | add sh => exact sharemapAdd_spec hf.set hok
      | remove key =>
        refine wp_mono (sharemapRemove_spec hf.set key) (fun _ t ⟨g, hg, _⟩ => ⟨g, hg⟩)
          fun _ t ht => ?_
        subst ht
        exact ⟨f, (Drops.refl t).turns hf.set fun _ => (Nat.zero_add _).symm⟩
      | clear => exact sharemapClear_spec hf.set
    obtain ⟨g, hg⟩ := hnext
    exact ⟨g, hf.trans hg⟩

def Finds (ps : Kobj) (s : Machine) (id : ℕ) (sh : Kobj) : Prop :=
  ∃ s', sharemapGet ps id s = (.ok sh, s')

lemma HoldsSet.finds_iff (h : HoldsSet ps s f) (id : ℕ) (sh : Kobj) :
    Finds ps s id sh ↔ f.lookup id = some sh := by
  have hspec := sharemapGet_spec h id
  simp only [wp] at hspec
  rw [Finds]
  rcases hrun : sharemapGet ps id s with ⟨q | e | w, s'⟩ <;> rw [hrun] at hspec
  · obtain ⟨hq, rfl⟩ := hspec
    simp [hq]
  · obtain ⟨hno, rfl⟩ := hspec
    simp [Finmap.lookup_eq_none.mpr hno]
  · exact hspec.elim

/-- **The shares of a processor are a set** as long as no share is added again behind an entry
that the insertion can use: the count of a share is one more than it was at the start while the
share is found and what it was at the start otherwise, a share that has been removed is not
found, and the move to a larger table never fails on an entry. The references that lookup caches
give up meanwhile are their own, so shares in such a cache at the start are set aside. -/
theorem share_set_is_set {start : Machine}
    (h : (sharemaps ps start).Reach (fun s op => op.Lands ps s) s) :
    (∀ sh, ¬ start.Cached sh →
      (Finds ps s (s.obj sh).koId sh → (s.obj sh).koRef = (start.obj sh).koRef + 1) ∧
      (¬ Finds ps s (s.obj sh).koId sh → (s.obj sh).koRef = (start.obj sh).koRef)) ∧
    (∀ id s', sharemapRemove processorHalt ps id s = (.ok (), s') → ∀ sh, ¬ Finds ps s' id sh) ∧
    ∃ t, rehashInto (s.sharemap ps).table.toList
      (hashInit (nextPages (s.sharemap ps) * nHashentryPerPage)) = (.ok (), t) := by
  obtain ⟨f, hf⟩ := turns_of_reach h
  refine ⟨fun sh hsh => ?_, fun id s' hrun sh hfind => ?_, ?_⟩
  · have hrefs := hf.refs sh hsh
    rw [if_neg has_empty, Nat.add_zero] at hrefs
    rw [hf.set.finds_iff, hrefs]
    exact ⟨fun hhas => congrArg _ (if_pos hhas), fun hno => congrArg _ (if_neg hno)⟩
  · have hspec := sharemapRemove_spec hf.set id
    simp only [wp, hrun] at hspec
    obtain ⟨g, hg, hnone⟩ := hspec
    rw [hg.set.finds_iff, hnone] at hfind
    cases hfind
  · obtain ⟨hpow, hlarger, -⟩ :=
      nextPages_spec hf.set.sized.cap hf.set.sized.pages hf.set.holds
    obtain ⟨_, t, hrun, -⟩ := ok_of_never (rehashInto_toList hf.set.holds (fun _ => hpow)
      (hf.set.holds.size_le.trans hlarger.le))
    exact ⟨t, hrun⟩

/-- Segments and two shares whose ids, 16 and 39, are hashed to one entry, and a processor that
has no shares yet. -/
def sharesRun : List Event :=
  List.replicate 12 ⟨0, .syscall (.segmentAlloc 1 0 0)⟩ ++
    [⟨0, .syscall (.shareAlloc 1 0xFFFFFFFF 0)⟩] ++
    List.replicate 22 ⟨0, .syscall (.segmentAlloc 1 0 0)⟩ ++
    [⟨0, .syscall (.shareAlloc 1 0xFFFFFFFF 0)⟩, ⟨0, .syscall (.processorAlloc 1 1)⟩]

/-- A run of calls on the sharemap of that processor, each of which passes a test, with the state
before it. -/
def shareCalls (test : Machine → SmOp → Bool) (l : List SmOp) : Option (Machine × Machine) :=
  (bootRun 100 2 (fun _ _ => true) sharesRun).bind fun start =>
    if (start.obj 39).live = true ∧ (start.obj 39).koType = .processor ∧
        (start.sharemap 39).Fresh then
      ((sharemaps 39 start).run test l start).map fun s => (start, s)
    else none

lemma reach_of_shareCalls {P : Machine × Machine → Prop} [DecidablePred P]
    {ok : Machine → SmOp → Prop} (test : Machine → SmOp → Bool)
    (ht : ∀ s op, test s op = true → ok s op) (l : List SmOp)
    (h : ∃ x ∈ shareCalls test l, P x) :
    ∃ start s, (sharemaps 39 start).Reach ok s ∧ P (start, s) := by
  obtain ⟨x, hx, hP⟩ := h
  obtain ⟨start, -, hr⟩ := Option.bind_eq_some_iff.mp hx
  split_ifs at hr with hinit
  obtain ⟨s, hs, rfl⟩ := Option.map_eq_some_iff.mp hr
  have h0 : (sharemaps 39 start).init start := ⟨rfl, hinit⟩
  exact ⟨start, s, (System.Reach.start h0).run ht hs, hP⟩

theorem share_set_is_set_twice :
    ∃ start s, (sharemaps 39 start).Reach (fun s op => op.Lands 39 s) s ∧
      (s.obj 38).koRef = (start.obj 38).koRef + 1 ∧
      (∀ sh, ¬ start.Cached sh →
        (Finds 39 s (s.obj sh).koId sh → (s.obj sh).koRef = (start.obj sh).koRef + 1) ∧
        (¬ Finds 39 s (s.obj sh).koId sh → (s.obj sh).koRef = (start.obj sh).koRef)) ∧
      (∀ id s', sharemapRemove processorHalt 39 id s = (.ok (), s') → ∀ sh, ¬ Finds 39 s' id sh) ∧
      ∃ t, rehashInto (s.sharemap 39).table.toList
        (hashInit (nextPages (s.sharemap 39) * nHashentryPerPage)) = (.ok (), t) := by
  obtain ⟨start, s, hs, hrefs⟩ := reach_of_shareCalls
    (P := fun x => (x.2.obj 38).koRef = (x.1.obj 38).koRef + 1)
    (fun s op => op.Lands 39 s) (fun _ _ => of_decide_eq_true)
    [.add 15, .add 38, .add 38, .remove 16] (by decide +kernel)
  exact ⟨start, s, hs, hrefs, share_set_is_set hs⟩

/-- Added again after the other one has been removed, the second share is entered and referred
to twice, and is still found when it has been removed. -/
theorem share_set_has_share_twice :
    ∃ start s s', (sharemaps 39 start).Reachable s ∧ Finds 39 s (s.obj 38).koId 38 ∧
      (s.obj 38).koRef = (start.obj 38).koRef + 2 ∧
      sharemapRemove processorHalt 39 (s.obj 38).koId s = (.ok (), s') ∧
      Finds 39 s' (s.obj 38).koId 38 := by
  obtain ⟨start, s, hs, ⟨⟨_, u⟩, hu, rfl⟩, hrefs, ⟨_, s'⟩, hs', ⟨_, w⟩, hw, rfl⟩ :=
    reach_of_shareCalls (P := fun x =>
      (∃ r ∈ (sharemapGet 39 (x.2.obj 38).koId).result x.2, r.1 = 38) ∧
        (x.2.obj 38).koRef = (x.1.obj 38).koRef + 2 ∧
        ∃ r ∈ (sharemapRemove processorHalt 39 (x.2.obj 38).koId).result x.2,
          ∃ r' ∈ (sharemapGet 39 (x.2.obj 38).koId).result r.2, r'.1 = 38)
      (fun _ _ => true) (fun _ _ _ => trivial) [.add 15, .add 38, .remove 16, .add 38]
      (by decide +kernel)
  exact ⟨start, s, s', hs, ⟨u, result_eq_some.mp hu⟩, hrefs, result_eq_some.mp hs',
    w, result_eq_some.mp hw⟩

end Corey.Kern
