import Corey.Kern.UserAccess
import Corey.Kern.FaultPath

/-!
Tables of mappings in user memory (`at_to_user` and `at_from_user` in `kern/at.c`).

The state is the machine together with the user's table, whose entries are read and written one
by one. The header of the table and its array are taken not to overlap. Which entries have been
touched is recorded.
-/

namespace Corey.Kern

open Function Corey.Comp Corey.Mem

/-! ### The user's side -/

/-- `struct u_address_tree`, and what its array holds. -/
structure UserTable where
  size : ℕ
  nent : ℕ
  ents : ℕ
  trap : Utrap
  slots : ℕ → UAddressMapping
  /-- history: the entries that have been read or written -/
  touched : List ℕ := []

/-- `sizeof(struct u_address_tree)` -/
def uatSize : ℕ := 48

abbrev UM := Comp Errno (Machine × UserTable)

/-- What the kernel does without looking at the table. -/
def kern {α : Type} (m : KM α) : UM α := zoom Prod.fst (fun t s => (t, s.2)) m

def readEnt (i : ℕ) : UM UAddressMapping := do
  change fun s => (s.1, { s.2 with touched := i :: s.2.touched })
  let s ← state
  pure (s.2.slots i)

def writeEnt (i : ℕ) (u : UAddressMapping) : UM Unit := change fun s =>
  (s.1, { s.2 with slots := update s.2.slots i u, touched := i :: s.2.touched })

/-- `processor_sched()->ps_at` -/
def currentTree : KM Kobj := do
  let ps ← theProcessor
  let p ← derefAs .processor ps
  need .gone p.ps.psAt

/-- The product of `safe_mul64` is used before its overflow is looked at. -/
def atCheckUat (fuel : ℕ) (a : Kobj) (uat : ℕ) : UM Unit := do
  kern (checkUserAccess fuel a uat uatSize segmapWrite)
  let s ← state
  kern (checkUserAccess fuel a s.2.ents (uamSize * s.2.size % word64) segmapWrite)
  if word64 ≤ uamSize * s.2.size then raise .inval else pure ()

/-- The loop of `at_to_user` over the `k` slots from `i` on, when `nent` have been copied. -/
def copyOut (slots : ℕ → UAddressMapping) (size : ℕ) : ℕ → ℕ → ℕ → UM ℕ
  | 0, _, nent => pure nent
  | k + 1, i, nent =>
    if (slots i).flags = 0 then copyOut slots size k (i + 1) nent
    else do
      require ((slots i).kslot = i)
      if size ≤ nent then raise .noSpace
      else do
        writeEnt nent (slots i)
        copyOut slots size k (i + 1) (nent + 1)

def atToUser (fuel : ℕ) (a : Kobj) (uat : ℕ) : UM Unit := do
  let cur ← kern currentTree
  atCheckUat fuel cur uat
  let n ← kern (atNents a)
  let s ← state
  let nent ← copyOut (s.1.obj a).tree.uaddrmap s.2.size n 0 0
  change fun s => (s.1, { s.2 with nent := nent, trap := (s.1.obj a).tree.atUtrap })

/-- One round of the loop of `at_from_user`: the user's entry is changed, too. -/
def copyIn (a : Kobj) (nent i : ℕ) : UM Unit := do
  if i < nent then do
    let e ← readEnt i
    let u := { e.sanitize with kslot := i % word32 }
    writeEnt i u
    kern (setUaddrmap a i u)
  else kern (setUaddrmap a i {})

/-- The part of `at_from_user` before its loop, and the number of rounds of that. -/
def makeRoom (a : Kobj) (nent : ℕ) : KM ℕ := do
  let old ← atNents a
  if old < nent then atResize a nent
  atClearMappings a
  atNents a

/-- `at_from_user`. The size of the array plays no part after the check. -/
def atFromUserTable (fuel : ℕ) (a : Kobj) (uat : ℕ) : UM Unit := do
  let cur ← kern currentTree
  atCheckUat fuel cur uat
  let s ← state
  let n ← kern (makeRoom a s.2.nent)
  loop (copyIn a s.2.nent) 0 n
  kern (modTree a fun t => { t with atUtrap := s.2.trap })
  let o ← kern (derefAs .addressTree a)
  kern (forEach (atInvalidate a) o.tree.atPsList)

variable {s s' t : Machine} {x x' : Machine × UserTable} {w : UserTable} {a b : Kobj}
  {fuel uat n nent : ℕ} {α : Type} {m : KM α} {I : UserTable → Prop} {l : List ℕ}

/-! ### Which entries are touched -/

/-- What holds of the user's table at every exit. -/
@[reducible] def Exits.table (I : UserTable → Prop) : Exits Errno (Machine × UserTable) :=
  ⟨fun _ x => I x.2, fun _ x => I x.2⟩

lemma kern_same (h : I x.2) : wp (kern m) (fun _ y => y.2 = x.2) (Exits.table I) x :=
  wp_zoom.mpr (wp_of_forall (fun _ _ => rfl) (fun _ _ => h) fun _ _ => h)

lemma atCheckUat_same (h : I x.2) :
    wp (atCheckUat fuel a uat) (fun _ y => y.2 = x.2) (Exits.table I) x := by
  simp only [atCheckUat, wp_rules]
  refine wp_post (kern_same h) fun _ y hy => ?_
  refine wp_post (kern_same (by rwa [hy])) fun _ z hz => ?_
  have hzx : z.2 = x.2 := hz.trans hy
  exact ⟨fun _ => show I z.2 by rwa [hzx], fun _ => hzx⟩

/-- The entries that are touched are those of before or below a bound. -/
def Below (bound : ℕ) (l : List ℕ) (w : UserTable) : Prop := ∀ i ∈ w.touched, i ∈ l ∨ i < bound

lemma Below.refl (bound : ℕ) (w : UserTable) : Below bound w.touched w := fun _ h => .inl h

lemma copyOut_below (slots : ℕ → UAddressMapping) (size : ℕ) (l : List ℕ) :
    ∀ (k i nent : ℕ) (x : Machine × UserTable), Below size l x.2 →
      wp (copyOut slots size k i nent) (fun _ y => Below size l y.2) (Exits.table (Below size l)) x
  | 0, _, _, _, h => h
  | k + 1, i, nent, x, h => by
    rw [copyOut, wp_ite]
    refine ⟨fun _ => copyOut_below slots size l k (i + 1) nent x h, fun _ => ?_⟩
    simp only [wp_rules]
    refine ⟨fun _ => ⟨fun _ => h, fun hlt => ?_⟩, fun _ => h⟩
    refine copyOut_below slots size l k (i + 1) (nent + 1) _ fun j hj => ?_
    rcases List.mem_cons.mp hj with rfl | hj
    · exact .inr (by omega)
    · exact h j hj

lemma atToUser_below (x : Machine × UserTable) :
    wp (atToUser fuel a uat) (fun _ y => Below x.2.size x.2.touched y.2)
      (Exits.table (Below x.2.size x.2.touched)) x := by
  have h0 := Below.refl x.2.size x.2
  simp only [atToUser, wp_bind]
  refine wp_post (kern_same h0) fun _ y hy => ?_
  refine wp_post (atCheckUat_same (hy ▸ h0)) fun _ z hz => ?_
  refine wp_post (kern_same (hz ▸ hy ▸ h0)) fun n v hv => ?_
  have hvx : v.2 = x.2 := hv.trans (hz.trans hy)
  rw [wp_state, hvx]
  exact wp_post (copyOut_below _ _ _ _ _ _ v (hvx ▸ h0)) fun _ _ h => h

lemma copyIn_below {i : ℕ} (x : Machine × UserTable) (h : Below nent l x.2) :
    wp (copyIn a nent i) (fun _ y => Below nent l y.2 ∧ x.2.touched ⊆ y.2.touched ∧
      (i < nent → i ∈ y.2.touched)) (Exits.table (Below nent l)) x := by
  rw [copyIn, wp_ite]
  refine ⟨fun hi => ?_, fun hi => ?_⟩
  · have hin : ∀ z : UserTable, z.touched = i :: i :: x.2.touched → Below nent l z := by
      intro z hz j hj
      rw [hz] at hj
      rcases List.mem_cons.mp hj with rfl | hj
      · exact .inr hi
      · rcases List.mem_cons.mp hj with rfl | hj
        · exact .inr hi
        · exact h j hj
    simp only [readEnt, writeEnt, wp_rules]
    refine wp_post (kern_same (hin _ rfl)) fun _ y hy => ⟨hin _ (by rw [hy]), ?_, fun _ => ?_⟩
    · rw [hy]
      intro j hj
      exact List.mem_cons_of_mem _ (List.mem_cons_of_mem _ hj)
    · rw [hy]
      exact List.mem_cons_self
  · refine wp_post (kern_same h) fun _ y hy => ⟨hy ▸ h, ?_, fun hlt => (hi hlt).elim⟩
    rw [hy]
    exact List.Subset.refl _

lemma copyIns_below (n : ℕ) (x : Machine × UserTable) (h : Below nent l x.2) :
    wp (loop (copyIn a nent) 0 n) (fun _ y => Below nent l y.2 ∧
      ∀ i < n, i < nent → i ∈ y.2.touched) (Exits.table (Below nent l)) x := by
  refine wp_post (wp_loop (fun j y => Below nent l y.2 ∧ ∀ i < j, i < nent → i ∈ y.2.touched)
    n 0 x ⟨h, fun i hi => absurd hi (Nat.not_lt_zero i)⟩ ?_) fun _ y hy => ?_
  · intro j y _ _ ⟨hy, hdone⟩
    refine wp_post (copyIn_below y hy) fun _ z ⟨hz, hsub, hj⟩ => ⟨hz, fun i hi hlt => ?_⟩
    rcases Nat.lt_succ_iff_lt_or_eq.mp hi with hi | rfl
    · exact hsub (hdone i hi hlt)
    · exact hj hlt
  · rwa [Nat.zero_add] at hy

lemma onArrays_setNent (x : TreeId) (n : ℕ) (s : Machine) :
    wp (onArrays (darraySetNent x n true)) (fun _ t => t.obj = s.obj ∧ (t.darray x).daNent = n)
      ⟨fun _ t => t.obj = s.obj ∧ t.darray = s.darray, fun _ _ => True⟩ s := by
  have hkeep : ∀ {α : Type} {m : DaM TreeId α} {r : (TreeId → Darray) × Forest TreeId},
      KeepsHeads m → r.1 = s.darray → m.Leaves (fun r => r.1 = s.darray) r := fun hm hr =>
    hm.wp_keeps (fun _ _ hR hI => hR.trans hI) hr
  simp only [onArrays, darraySetNent, head, setHead, wp_rules, wp_zoom]
  refine wp_mono (hkeep (.loop (dropPage_heads x) _ _) rfl) (fun _ r hr => ?_)
    fun _ _ hr => ⟨rfl, hr⟩
  refine wp_mono (hkeep (growPages_heads x _ _ true) hr) (fun _ r _ => ⟨trivial, ?_⟩)
    fun _ _ hr => ⟨rfl, hr⟩
  show (update r.1 x _ x).daNent = n
  rw [update_self]

lemma atResize_ok (a : Kobj) (n : ℕ) (s : Machine) :
    wp (atResize a n) (fun _ t => (t.darray (atUaddrmap a)).daNent = n ∧
        ∀ i, (t.obj a).tree.uaddrmap i = if (s.darray (atUaddrmap a)).daNent ≤ i ∧ i < n then {}
          else (s.obj a).tree.uaddrmap i)
      ⟨fun _ t => t.obj = s.obj ∧ t.darray = s.darray, fun _ _ => True⟩ s := by
  simp only [atResize, atNents, setRange, wp_rules, wp_derefAs, wp_modTree, implies_true, and_true]
  -- the range is dropped first if the table shrinks
  refine fun _ _ => ⟨fun _ => ?_, fun _ => ?_⟩ <;>
    refine wp_mono (onArrays_setNent (atUaddrmap a) n _) (fun _ v hv => ⟨hv.2, fun i => ?_⟩)
      fun _ _ => id <;>
    rw [modObj_self, hv.1]

lemma amlRemove_trees (ko : Kobj) (r : AmRef) : Steps SameTrees (amlRemove ko r) :=
  .bind (amlGetList_quiet _) fun _ => .change fun s => by
      refine .modObj ?_ rfl
      split <;> rfl

lemma atClearMappings_trees (a : Kobj) : Steps SameTrees (atClearMappings a) :=
  atClearMappings_steps (atGetAddrmap_trees a) amlRemove_trees fun _ =>
    .change fun _ => .modObj rfl rfl

lemma kern_ok {Q : α → Machine → Prop} (h : wp m Q .any x.1) :
    wp (kern m) (fun r y => Q r y.1 ∧ y.2 = x.2) .any x :=
  wp_zoom.mpr (wp_weaken h fun _ _ h => ⟨h, rfl⟩)

lemma atNents_ok (a : Kobj) (s : Machine) :
    wp (atNents a) (fun n t => t = s ∧ n = (s.darray (atUaddrmap a)).daNent) .any s := by
  simp [atNents]

lemma makeRoom_ok (a : Kobj) (nent : ℕ) (s : Machine) :
    wp (makeRoom a nent) (fun n t => n = (t.darray (atUaddrmap a)).daNent ∧ nent ≤ n) .any s := by
  have hrest : ∀ u : Machine, nent ≤ (u.darray (atUaddrmap a)).daNent → wp (do
      atClearMappings a
      atNents a) (fun n t => n = (t.darray (atUaddrmap a)).daNent ∧ nent ≤ n) .any u := by
    intro u hu
    rw [wp_bind]
    refine wp_post (trees_ok (atClearMappings_trees a) u) fun _ v hv => ?_
    refine wp_post (atNents_ok a v) fun n t ⟨ht, hn⟩ => ⟨ht ▸ hn, ?_⟩
    rw [hn, hv.user.nents]
    exact hu
  rw [makeRoom, wp_bind]
  refine wp_post (atNents_ok a s) fun old t ⟨ht, hold⟩ => ?_
  rw [wp_ite, ht]
  refine ⟨fun _ => ?_, fun hle => hrest s (by omega)⟩
  rw [wp_bind]
  exact wp_weaken (atResize_ok a nent s) fun _ u hu => hrest u (by omega)

lemma atFromUserTable_below (x : Machine × UserTable) :
    wp (atFromUserTable fuel a uat) (fun _ y => Below x.2.nent x.2.touched y.2 ∧
      ∀ i < x.2.nent, i ∈ y.2.touched) (Exits.table (Below x.2.nent x.2.touched)) x := by
  have h0 := Below.refl x.2.nent x.2
  simp only [atFromUserTable, wp_bind]
  refine wp_post (kern_same h0) fun _ y hy => ?_
  refine wp_post (atCheckUat_same (hy ▸ h0)) fun _ z hz => ?_
  have hzx : z.2 = x.2 := hz.trans hy
  rw [wp_state, hzx]
  have hroom : wp (kern (makeRoom a x.2.nent)) (fun n v => v.2 = x.2 ∧ x.2.nent ≤ n)
      (Exits.table (Below x.2.nent x.2.touched)) z :=
    wp_imp (wp_and (kern_same (hzx ▸ h0)) (kern_ok (makeRoom_ok a x.2.nent z.1)))
      (fun _ _ h => ⟨h.1.trans hzx, h.2.1.2⟩) (fun _ _ h => h.1) fun _ _ h => h.1
  refine wp_post hroom fun n v ht => ?_
  obtain ⟨hvx, hn⟩ := ht
  refine wp_post (copyIns_below n v (hvx ▸ h0)) fun _ u ht => ?_
  obtain ⟨hu, hall⟩ := ht
  refine wp_post (kern_same hu) fun _ u1 hu1 => ?_
  refine wp_post (kern_same (hu1 ▸ hu)) fun o u2 hu2 => ?_
  refine wp_post (kern_same (hu2 ▸ hu1 ▸ hu)) fun _ u3 hu3 => ?_
  rw [hu3, hu2, hu1]
  exact ⟨hu, fun i hi => hall i (by omega) hi⟩

/-- **Only entries of the user's array are touched** when a table is read. When one is written,
its `nent` is used without a look at its `size`, so this holds if `nent` is not larger, and only
then if the call succeeds. -/
theorem touched_in_array_iff (hx : x.2.touched = []) :
    (∀ i ∈ (atToUser fuel a uat x).2.2.touched, i < x.2.size) ∧
    (x.2.nent ≤ x.2.size → ∀ i ∈ (atFromUserTable fuel a uat x).2.2.touched, i < x.2.size) ∧
    ∀ x', atFromUserTable fuel a uat x = (.ok (), x') →
      ((∀ i ∈ x'.2.touched, i < x.2.size) ↔ x.2.nent ≤ x.2.size) := by
  have hto : Below x.2.size x.2.touched (atToUser fuel a uat x).2.2 :=
    state_of_wp (I := fun y : Machine × UserTable => Below _ _ y.2) (atToUser_below x)
  have hfrom : Below x.2.nent x.2.touched (atFromUserTable fuel a uat x).2.2 :=
    state_of_wp (I := fun y : Machine × UserTable => Below _ _ y.2)
      (wp_post (atFromUserTable_below x) fun _ _ h => h.1)
  rw [hx] at hto hfrom
  refine ⟨fun i hi => (hto i hi).resolve_left nofun, fun hle i hi => ?_, fun x' hok => ?_⟩
  · exact Nat.lt_of_lt_of_le ((hfrom i hi).resolve_left nofun) hle
  · obtain ⟨hbelow, hall⟩ := wp_ok (atFromUserTable_below x) hok
    rw [hx] at hbelow
    constructor
    · intro hin
      by_contra hgt
      exact absurd (hin x.2.size (hall _ (by omega))) (Nat.lt_irrefl _)
    · intro hle i hi
      exact Nat.lt_of_lt_of_le ((hbelow i hi).resolve_left nofun) hle

/-- A table in the page that the boot processor has mapped, with entries that are all zero. -/
def pageTable (size nent : ℕ) : UserTable :=
  { size := size, nent := nent, ents := 0x1100, trap := {}, slots := fun _ => {} }

theorem touched_in_array_iff_one :
    ∃ s x', kernel.Reachable s ∧ atFromUserTable 1 2 0x1000 (s, pageTable 2 1) = (.ok (), x') ∧
      (∀ i ∈ (atToUser 1 2 0x1000 (s, pageTable 2 1)).2.2.touched, i < 2) ∧
      ((∀ i ∈ x'.2.touched, i < 2) ↔ 1 ≤ 2) := by
  obtain ⟨s, hs, hx⟩ := reachable_of_bootRun 40 1 mappedRun (P := fun s =>
    ((atFromUserTable 1 2 0x1000).result (s, pageTable 2 1)).isSome) (by decide +kernel)
  obtain ⟨⟨_, x'⟩, hr⟩ := Option.isSome_iff_exists.mp hx
  have h := @touched_in_array_iff (s, pageTable 2 1) 2 1 0x1000 rfl
  exact ⟨s, x', hs, result_eq_some.mp hr, h.1, h.2.2 x' (result_eq_some.mp hr)⟩

/-- A table without an array of which one entry is to be used: the check finds nothing to check,
and what the pointer leads to is read and written. -/
theorem touched_outside_array :
    ∃ s x', kernel.Reachable s ∧ atFromUserTable 1 2 0x1000 (s, pageTable 0 1) = (.ok (), x') ∧
      0 ∈ x'.2.touched ∧ ¬ 0 < (pageTable 0 1).size := by
  obtain ⟨s, hs, ⟨_, x'⟩, hr, htouched⟩ := reachable_of_bootRun 40 1 mappedRun (P := fun s =>
    ∃ r ∈ (atFromUserTable 1 2 0x1000).result (s, pageTable 0 1), 0 ∈ r.2.2.touched)
    (by decide +kernel)
  exact ⟨s, x', hs, result_eq_some.mp hr, htouched, by decide⟩

end Corey.Kern
