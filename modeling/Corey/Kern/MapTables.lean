import Corey.Kern.Collection
import Corey.Kern.GrowingMap

/-!
What the table of a map holds, whatever the allocator does (`kern/map.c`).

An insertion into a map may fail, and the move to a larger table that comes before it may fail
as well; the table then still holds what it held. A table that has just been moved has no
tombstones, so an insertion into it meets a key that is there.
-/

namespace Corey.Kern

open Corey.Comp Corey.Mem

variable {V : Type} {ι : Type} [DecidableEq ι] {back : Bool → ι} {f : Finmap fun _ : ℕ => V}
  {s : Map V × Forest ι} {t : Hashtable V} {key : ℕ} {m : Map V}

section

variable {k k' : ℕ} {v v' : V}

lemma lookup_insert_some : (f.insert k v).lookup k' = some v' ↔
    k' = k ∧ v' = v ∨ k' ≠ k ∧ f.lookup k' = some v' := by
  by_cases hk : k' = k
  · subst hk
    simp [eq_comm]
  · simp [hk, Finmap.lookup_insert_of_ne]

lemma lookup_erase_some :
    (f.erase k).lookup k' = some v ↔ k' ≠ k ∧ f.lookup k' = some v := by
  by_cases hk : k' = k
  · subst hk
    simp
  · simp [hk, Finmap.lookup_erase_ne]

end

/-! ### Tables without tombstones -/

def NoTombs (t : Hashtable V) : Prop := ∀ i, (t.ent i).key ≠ tomb

lemma putProbe_free (t u : Hashtable V) : ∀ k i, k ≤ t.capacity →
    wp (putProbe t key k i) (fun r u' => u' = u ∧ ∀ j ∈ r, j < t.capacity ∧ ¬ IsKey (t.ent j).key)
      ⟨fun _ _ => False, fun _ _ => True⟩ u := by
  intro k
  induction k with
  | zero => exact fun _ _ => trivial
  | succ k ih =>
    intro i hle
    rw [putProbe_succ]
    split_ifs with hfree
    · refine ⟨rfl, fun j hj => ?_⟩
      cases hj
      exact ⟨probe_lt (by omega), not_isKey.mpr hfree⟩
    · exact ⟨rfl, nofun⟩
    · exact ih (i + 1) (by omega)

lemma hashPut_writes (key : ℕ) (v : V) (t : Hashtable V) :
    wp (hashPut key v) (fun _ t' => IsKey key ∧ ∃ j < t.capacity, ¬ IsKey (t.ent j).key ∧
        t' = t.write j (t.size + 1) ⟨key, some v⟩)
      ⟨fun _ t' => t' = t, fun _ _ => True⟩ t := by
  simp only [hashPut, wp_rules, implies_true, true_and]
  intro hk _
  refine wp_mono (putProbe_free t t t.capacity 0 le_rfl) (fun r t' ht' => ?_) fun _ _ => False.elim
  obtain ⟨rfl, hr⟩ := ht'
  cases r with
  | none => rfl
  | some j =>
    obtain ⟨hj, hfree⟩ := hr j rfl
    exact ⟨by rwa [← not_isKey, not_not] at hk, j, hj, hfree, rfl⟩

lemma hashPut_noTombs (h : NoTombs t) (v : V) :
    wp (hashPut key v) (fun _ t' => NoTombs t') .any t := by
  refine wp_weaken (hashPut_writes key v t) fun _ t' ht' i => ?_
  obtain ⟨hk, j, -, -, rfl⟩ := ht'
  by_cases hi : i = j
  · rw [hi, write_self]
    exact hk.2
  · rw [write_of_ne hi]
    exact h i

lemma rehashInto_noTombs (l : List (ℕ × V)) :
    ∀ t : Hashtable V, NoTombs t → wp (rehashInto l) (fun _ t' => NoTombs t') .any t := by
  induction l with
  | nil => exact fun t h => h
  | cons e l ih =>
    intro t h
    obtain ⟨k, v⟩ := e
    simp only [rehashInto, wp_bind, wp_attempt]
    exact wp_weaken (hashPut_noTombs h v) fun _ t' ht' => ih t' ht'

lemma rehashInto_errless : ∀ l : List (ℕ × V), Errless (rehashInto l)
  | [] => .pure _
  | _ :: l => .bind (.attempt _) fun r => by
    cases r with
    | error => exact .halt _
    | ok => exact rehashInto_errless l

lemma Holds.metFirst (h : Holds t f) (hno : NoTombs t) (hf : key ∈ f) : MetFirst t key := by
  obtain ⟨d, hd, heq, hbefore⟩ := h.place key hf
  exact ⟨d, hd, heq, fun e he => ⟨hbefore e he, hno _⟩⟩

/-! ### Insertion -/

/-- An insertion does not take an entry that comes before the key's own. -/
def Lands (t : Hashtable V) (key : ℕ) : Prop := PutMeets t key ∨ t.size = t.capacity
  deriving Decidable

lemma Lands.metFirst (h : Holds t f) (hl : Lands t key) (hf : key ∈ f)
    (hfull : t.size ≠ t.capacity) : MetFirst t key :=
  (h.met hf (hl.resolve_right hfull)).2

lemma hashPut_holds (h : Holds t f)
    (hput : key ∈ f → t.size ≠ t.capacity → MetFirst t key) (v : V) :
    wp (hashPut key v) (fun _ t' => key ∉ f ∧ Holds t' (f.insert key v) ∧ t'.capacity = t.capacity)
      ⟨fun _ t' => t' = t, fun _ _ => False⟩ t := by
  by_cases hk : IsKey key
  · by_cases hfull : t.size = t.capacity
    · simp only [wp, hashPut_full hk hfull]
    · by_cases hf : key ∈ f
      · simp only [wp, hashPut_met hk hfull (hput hf hfull)]
      · obtain ⟨t', ht', hcap, hh⟩ :=
          hashPut_of_notMem h hk hf (Nat.lt_of_le_of_ne h.size_le hfull) v
        simp only [wp, ht']
        exact ⟨hf, hh, hcap⟩
  · simp only [hashPut, wp_rules]
    exact ⟨fun _ => trivial, fun hno => absurd (not_isKey.mp hk) hno⟩

/-- The table fills whole pages, as many as a page tree can have. -/
structure Sized (m : Map V) : Prop where
  cap : m.table.capacity = m.npages * nHashentryPerPage
  pages : m.npages ≤ treePages

def Map.Fresh (m : Map V) : Prop := m.npages = 0 ∧ m.table.capacity = 0 ∧ m.table.size = 0
  deriving Decidable

lemma Map.Fresh.sized (h : m.Fresh) : Sized m :=
  ⟨by rw [h.2.1, h.1, Nat.zero_mul], h.1 ▸ Nat.zero_le _⟩

lemma Map.Fresh.holds (h : m.Fresh) : Holds m.table ∅ := by
  obtain ⟨-, hcap, hsize⟩ := h
  have hnone : ∀ i, ¬ i < m.table.capacity := fun i hi => by omega
  exact ⟨fun h => absurd h (hnone 0), by rw [hsize]; rfl, fun k hk => absurd hk Finmap.notMem_empty,
    fun i hi => absurd hi (hnone i), fun k hk => absurd hk Finmap.notMem_empty,
    fun i hi => absurd hi (hnone i)⟩

lemma putTablePage_ok (next : ι) (pid i : ℕ) (w : Forest ι) :
    wp (putTablePage next pid i) (fun _ _ => i < treePages) .any w := by
  have hentp : ∀ x, wp (pagetreeGetEntp i) (fun _ _ => i < treePages) .any x := by
    intro x
    cases hp : locate i with
    | none =>
      simp only [pagetreeGetEntp, hp, wp_raise]
    | some e =>
      have hlt : i < treePages := Nat.lt_of_not_le fun hle => by
        rw [locate_eq_none.mpr hle] at hp
        exact nomatch hp
      exact wp_any_of fun _ _ => hlt
  simp only [putTablePage, wp_bind, wp_attempt]
  refine wp_any_of fun p w => ?_
  simp only [wp_rules, Forest.putPage, Forest.drop, Forest.onTree, wp_zoom, pagetreePutPage]
  exact wp_weaken (hentp _) fun _ _ hlt => wp_any_of fun _ _ => hlt

lemma backTablePage_ok (next : ι) (pid i : ℕ) (s : Map V × Forest ι) :
    wp (backTablePage next pid i) (fun _ s' => s'.1 = s.1 ∧ i < treePages)
      ⟨fun _ s' => s'.1 = s.1, fun _ _ => True⟩ s := by
  simp only [backTablePage, wp_bind, wp_shared]
  refine wp_mono (putTablePage_ok next pid i s.2) (fun p w hlt => ?_) fun _ _ _ => rfl
  exact wp_of_forall (fun _ _ => ⟨trivial, hlt⟩) (fun _ _ => rfl) fun _ _ => trivial

/-- **What a move to the next table does** to any map: the entries of the old table are put
into an empty one, and a failure leaves the map as it was. -/
lemma rehash_moves (back : Bool → ι) (s : Map V × Forest ι) :
    wp (rehash back) (fun _ s' => nextPages s.1 ≤ treePages ∧ s'.1.npages = nextPages s.1 ∧
        rehashInto s.1.table.toList (hashInit (nextPages s.1 * nHashentryPerPage)) =
          (.ok (), s'.1.table))
      ⟨fun _ s' => s'.1 = s.1, fun _ _ => True⟩ s := by
  simp only [rehash, Forest.initTree, wp_rules, wp_shared, wp_onErr]
  -- the loop does not touch the map, and ends where the tree has a place for every page
  refine wp_mono (wp_loop (X := ⟨fun _ r => r.1 = s.1, fun _ _ => True⟩)
    (fun i r => r.1 = s.1 ∧ i ≤ treePages) (nextPages s.1) 0 _ ⟨rfl, Nat.zero_le _⟩
    fun j r _ _ hr => wp_mono (backTablePage_ok _ _ j r) (fun _ u hu => ⟨hu.1.trans hr.1, hu.2⟩)
      (fun _ u hu => hu.trans hr.1)) (fun _ r hr => ?_) (fun _ r hr => ?_)
  · rw [Nat.zero_add] at hr
    simp only [onTable, wp_zoom, wp_put]
    refine wp_mono (rehashInto_errless s.1.table.toList).wp_run (fun _ t ht => ?_)
      fun _ _ => False.elim
    exact wp_mono (free_errless _).wp_mayStop (fun _ _ _ => ⟨hr.2, rfl, ht⟩) fun _ _ => False.elim
  · exact wp_mono (free_errless _).wp_mayStop (fun _ _ _ => hr) fun _ _ => False.elim

lemma rehash_holds (back : Bool → ι) (h : Sized s.1) (hh : Holds s.1.table f) :
    wp (rehash back) (fun _ s' => Sized s'.1 ∧ Holds s'.1.table f ∧ NoTombs s'.1.table)
      ⟨fun _ s' => s'.1 = s.1, fun _ _ => True⟩ s := by
  obtain ⟨hpow, hlarger, -⟩ := nextPages_spec h.cap h.pages hh
  refine wp_post (rehash_moves back s) fun _ s' hs' => ?_
  obtain ⟨hle, hpages, hinto⟩ := hs'
  obtain ⟨hheld, hcap⟩ := wp_ok (rehashInto_toList hh (fun _ => hpow)
    (hh.size_le.trans hlarger.le)) hinto
  have hno := wp_ok (rehashInto_noTombs s.1.table.toList
    (hashInit (nextPages s.1 * nHashentryPerPage)) fun _ => tomb_ne_zero.symm) hinto
  exact ⟨⟨by rw [hcap, hpages], by rwa [hpages]⟩, hheld, hno⟩

/-- The insertion that follows finds room or meets the key, or it follows a move. -/
def MapLands (back : Bool → ι) (s : Map V × Forest ι) (key : ℕ) : Prop :=
  Lands s.1.table key ∨
    rehashThresh ≤ s.1.table.percent ∧ ((rehash back).result s).isSome = true

/-- **An insertion into a map** either enters a new key or changes nothing that it holds. -/
lemma mapPut_holds (h : Sized s.1) (hh : Holds s.1.table f)
    (hput : key ∈ f → MapLands back s key) (v : V) :
    wp (mapPut back key v) (fun _ s' => key ∉ f ∧ Sized s'.1 ∧ Holds s'.1.table (f.insert key v))
      ⟨fun _ s' => Sized s'.1 ∧ Holds s'.1.table f, fun _ _ => True⟩ s := by
  simp only [mapPut, wp_rules, rehashIf, wp_attempt, decide_eq_true_eq, implies_true, and_true]
  have hins : ∀ u : Map V × Forest ι, Sized u.1 → Holds u.1.table f →
      (key ∈ f → u.1.table.size ≠ u.1.table.capacity → MetFirst u.1.table key) →
      wp (onTable (hashPut key v)) (fun _ s' => key ∉ f ∧ Sized s'.1 ∧
        Holds s'.1.table (f.insert key v))
        ⟨fun _ s' => Sized s'.1 ∧ Holds s'.1.table f, fun _ _ => True⟩ u := by
    intro u hu hhu hput
    rw [onTable, wp_zoom]
    refine wp_mono (hashPut_holds hhu hput v) (fun _ t' ht' => ?_) fun _ t' ht' => ?_
    · exact ⟨ht'.1, ⟨ht'.2.2.trans hu.cap, hu.pages⟩, ht'.2.1⟩
    · subst ht'
      exact ⟨hu, hhu⟩
  refine fun _ => ⟨fun hdue => ?_, fun hnot => ?_⟩
  · have hre := rehash_holds back h hh
    simp only [wp] at hre ⊢
    rcases hrun : rehash back s with ⟨_ | _ | _, u⟩ <;> rw [hrun] at hre
    · exact hins u hre.1 hre.2.1 fun hf _ => hre.2.1.metFirst hre.2.2 hf
    · -- the move has failed, so the insertion goes to the old table
      have hu : u.1 = s.1 := hre
      refine hins u (hu ▸ h) (hu ▸ hh) fun hf hfull => ?_
      rw [hu] at hfull ⊢
      rcases hput hf with hl | ⟨-, hsome⟩
      · exact hl.metFirst hh hf hfull
      · simp [result, hrun] at hsome
    · trivial
  · refine hins s h hh fun hf hfull => ?_
    exact ((hput hf).resolve_right fun hm => hnot hm.1).metFirst hh hf hfull

/-! ### The entries of any table -/

def Hashtable.Same (t t' : Hashtable V) : Prop := ∀ x, x ∈ t'.toList ↔ x ∈ t.toList

lemma mem_toList_write {i n : ℕ} {v : V} (hk : IsKey key) (hi : i < t.capacity)
    (hfree : ¬ IsKey (t.ent i).key) (x : ℕ × V) :
    x ∈ (t.write i n ⟨key, some v⟩).toList ↔ x = (key, v) ∨ x ∈ t.toList := by
  obtain ⟨a, w⟩ := x
  rw [mem_toList, mem_toList, Prod.mk.injEq]
  constructor
  · rintro ⟨j, hj, ha, hkey, hval⟩
    by_cases hji : j = i
    · rw [hji, write_self] at hkey hval
      cases hval
      exact .inl ⟨hkey.symm, rfl⟩
    · rw [write_of_ne hji] at hkey hval
      exact .inr ⟨j, hj, ha, hkey, hval⟩
  · rintro (⟨rfl, rfl⟩ | ⟨j, hj, ha, hkey, hval⟩)
    · exact ⟨i, hi, hk, by rw [write_self], by rw [write_self]⟩
    · -- what is written over has no key, so it is not this entry
      have hji : j ≠ i := fun h => hfree (by rwa [← h, hkey])
      exact ⟨j, hj, ha, by rwa [write_of_ne hji], by rwa [write_of_ne hji]⟩

lemma rehashInto_lists : ∀ (l : List (ℕ × V)) (t : Hashtable V),
    wp (rehashInto l) (fun _ t' => ∀ x, x ∈ t'.toList ↔ x ∈ l ∨ x ∈ t.toList) .any t
  | [], t => fun x => by simp
  | (k, v) :: l, t => by
    simp only [rehashInto, wp_bind, wp_attempt]
    refine wp_mono (hashPut_writes k v t) (fun _ t1 ht1 => ?_) fun _ _ _ => trivial
    obtain ⟨hk, j, hj, hfree, rfl⟩ := ht1
    refine wp_post (rehashInto_lists l _) fun _ t' ht' x => ?_
    rw [ht' x, mem_toList_write hk hj hfree, List.mem_cons]
    tauto

lemma toList_hashInit (n : ℕ) (x : ℕ × V) : x ∉ (hashInit n : Hashtable V).toList := by
  obtain ⟨a, w⟩ := x
  rw [mem_toList]
  rintro ⟨j, -, ha, hkey, -⟩
  exact ha.1 hkey.symm

/-- **What an insertion does to the entries** of any map: a new one at most is added, and if it
fails they stay as they are, moved or not. -/
lemma mapPut_lists (back : Bool → ι) (key : ℕ) (v : V) (s : Map V × Forest ι) :
    wp (mapPut back key v)
      (fun _ s' => ∀ x, x ∈ s'.1.table.toList ↔ x = (key, v) ∨ x ∈ s.1.table.toList)
      ⟨fun _ s' => s.1.table.Same s'.1.table, fun _ _ => True⟩ s := by
  simp only [mapPut, rehashIf, wp_rules, wp_attempt, implies_true, and_true]
  have hput : ∀ u : Map V × Forest ι, s.1.table.Same u.1.table → wp (onTable (hashPut key v))
        (fun _ s' => ∀ x, x ∈ s'.1.table.toList ↔ x = (key, v) ∨ x ∈ s.1.table.toList)
        ⟨fun _ s' => s.1.table.Same s'.1.table, fun _ _ => True⟩ u := by
    intro u hu
    rw [onTable, wp_zoom]
    refine wp_mono (hashPut_writes key v u.1.table) (fun _ t' ht' x => ?_) fun _ t' ht' => ?_
    · obtain ⟨hk, j, hj, hfree, rfl⟩ := ht'
      rw [mem_toList_write hk hj hfree, hu x]
    · subst ht'
      exact hu
  refine fun _ => ⟨fun _ => ?_, fun _ => hput s fun _ => Iff.rfl⟩
  refine wp_mono (rehash_moves back s) (fun _ u hu => hput u fun x => ?_)
    fun _ u hu => hput u fun x => ?_
  · have hlists := wp_ok (rehashInto_lists _ _) hu.2.2
    rw [hlists x, or_iff_left (toList_hashInit _ x)]
  · rw [show u.1 = s.1 from hu]

lemma hashFind_lists (key : ℕ) (t : Hashtable V) :
    wp (hashFind key) (fun j t' => t' = t ∧ IsKey key ∧ j < t.capacity ∧ (t.ent j).key = key)
      ⟨fun _ t' => t' = t, fun _ _ => True⟩ t := by
  simp only [hashFind, wp_rules, implies_true, true_and]
  intro hk
  rcases hp : getProbe t key t.capacity 0 with _ | j
  · exact rfl
  · exact ⟨rfl, by rwa [← not_isKey, not_not] at hk, getProbe_key _ _ le_rfl hp⟩

lemma hashGet_lists (key : ℕ) (t : Hashtable V) :
    wp (hashGet key) (fun v t' => t' = t ∧ (key, v) ∈ t.toList)
      ⟨fun _ t' => t' = t, fun _ _ => True⟩ t := by
  simp only [hashGet, wp_rules]
  refine wp_post (hashFind_lists key t) fun j t' ⟨ht', hk, hj, hkey⟩ => ?_
  subst ht'
  exact ⟨fun v hv => ⟨rfl, mem_toList.mpr ⟨j, hj, hk, hkey, hv⟩⟩, fun _ => trivial⟩

lemma hashDel_lists (key : ℕ) (t : Hashtable V) :
    wp (hashDel key) (fun _ t' => ∀ x ∈ t'.toList, x ∈ t.toList)
      ⟨fun _ t' => t' = t, fun _ _ => True⟩ t := by
  simp only [hashDel, wp_rules]
  refine wp_post (hashFind_lists key t) fun j t' ⟨ht', _, _, _⟩ => ?_
  subst ht'
  rintro ⟨a, v⟩ hx
  obtain ⟨i, hi, ha, hkey, hval⟩ := mem_toList.mp hx
  have hij : i ≠ j := by
    rintro rfl
    simp at hval
  refine mem_toList.mpr ⟨i, hi, ha, ?_, ?_⟩
  · simpa [Function.update_of_ne hij] using hkey
  · simpa [Function.update_of_ne hij] using hval

/-! ### Lookup and removal -/

omit [DecidableEq ι] in
lemma mapGet_holds (hh : Holds s.1.table f) (key : ℕ) :
    wp (mapGet key : MapM ι V V) (fun v s' => s' = s ∧ f.lookup key = some v)
      ⟨fun _ s' => s' = s ∧ key ∉ f, fun _ _ => False⟩ s := by
  have hrun : ∀ {o : Outcome Errno V}, hashGet key s.1.table = (o, s.1.table) →
      (mapGet key : MapM ι V V) s = (o, s) := fun ho => onTable_eq ho
  by_cases hk : IsKey key
  · by_cases hf : key ∈ f
    · obtain ⟨v, hv⟩ := Finmap.mem_iff.mp hf
      simp only [wp, hrun (hashGet_of_mem hh hv), true_and]
      exact hv
    · simp only [wp, hrun (hashGet_of_notMem hh hk hf), true_and]
      exact hf
  · simp only [wp, hrun (hashGet_notKey hk), true_and]
    exact fun hf => hk (hh.key key hf)

omit [DecidableEq ι] in
lemma mapErase_holds (h : Sized s.1) (hh : Holds s.1.table f) (hf : key ∈ f) :
    wp (mapErase key : MapM ι V Unit) (fun _ s' => Sized s'.1 ∧ Holds s'.1.table (f.erase key) ∧
        s'.1.table = (hashDel key s.1.table).2) .never s := by
  obtain ⟨t', ht', hcap, hh'⟩ := hashDel_of_mem hh hf
  simp only [wp, mapErase, onTable_eq ht', ht', and_true]
  exact ⟨⟨hcap.trans h.cap, h.pages⟩, hh'⟩

end Corey.Kern
