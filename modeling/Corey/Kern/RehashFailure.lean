import Corey.Kern.Collection
import Corey.Kern.FullArrays
import Corey.Kern.GrowingMap

/-!
Growing a map without memory (`kern/map.c`).

`rehash` makes as many calls of `page_alloc` as the next table has pages and the tree of these
pages has blocks, and it does not survive that one of them fails. Where there is no page for the
table, `page_free` is given a variable of the stack; where there is none for a block, the page
that was to be put into the tree is forgotten.
-/

namespace Corey.Mem

open Corey.Comp Memory Finset Forest

variable {U : Finset Ppn} {m m' : Memory} {L : Ledger}

/-! ### Pages that do not come back -/

/-- A page that was free is not free any more. -/
def Lost (m m' : Memory) : Prop := ∃ q, m.freeCount q = 1 ∧ m'.freeCount q = 0

/-- Exactly one page is not free any more. -/
def LosesOne (m m' : Memory) : Prop :=
  ∃ x, ∀ q, m.freeCount q = m'.freeCount q + [x].count q

lemma LosesOne.lost (h : LosesOne m m') (hb : Balanced U m L) : Lost m m' := by
  obtain ⟨x, hx⟩ := h
  have hone := hx x
  have hle := hb.once_le x
  rw [List.count_singleton_self] at hone
  exact ⟨x, by omega, by omega⟩

namespace Forest

variable {ι : Type} {s s' : Forest ι} {T : Finset ι} {x : Ppn} {K : Set ι}

lemma freeCount_of_ledger (h : s.Sound U T) (h' : s'.Sound U T)
    (hledger : s'.ledger T = s.ledger T + one (.held x))
    (hpins : ∀ q, (s'.mem.info q).piHwRef = (s.mem.info q).piHwRef) (q : Ppn) :
    s.mem.freeCount q = s'.mem.freeCount q + [x].count q := by
  have hone := (h.balanced.page q).once
  have hone' := (h'.balanced.page q).once
  simp only [hledger, Memory.refs, hpins, Pi.add_apply, one_apply, reduceCtorEq, if_false,
    Use.held.injEq, Nat.add_zero] at hone hone'
  by_cases hq : q = x
  · rw [hq, List.count_singleton_self]
    rw [if_pos hq, hq] at hone'
    rw [hq] at hone
    omega
  · rw [List.count_eq_zero.mpr fun hin => hq (List.mem_singleton.mp hin)]
    rw [if_neg hq] at hone'
    omega

/-- Nothing but the trees in `K` has been worked on. -/
structure Aside (U : Finset Ppn) (T : Finset ι) (K : Set ι) (s s' : Forest ι) : Prop where
  sound : s'.Sound U T
  trees : ∀ u ∉ K, s'.tree u = s.tree u
  pins : ∀ q, (s'.mem.info q).piHwRef = (s.mem.info q).piHwRef
  hand : s.hand ⊆ s'.hand

end Forest

end Corey.Mem

namespace Corey.Kern

open Corey.Comp Corey.Mem Corey.Mem.Memory

variable {V ι : Type} [DecidableEq ι] {U : Finset Ppn} {T : Finset ι} {back : Bool → ι}
  {f : Finmap fun _ : ℕ => V} {s : Map V × Forest ι} {s0 s' : Forest ι} {w : Map V × Forest ι}
  {next : ι} {i k : ℕ} {pt : Pagetree} {m : Memory}

/-! ### The pages of the next table -/

/-- A table of `k` pages cannot be had: its tree has no place for it, or the calls of `page_alloc`
for the pages and for the blocks of the tree do not all succeed. -/
def Short (k : ℕ) (pt : Pagetree) (m : Memory) : Prop :=
  treePages < k ∨ m.grants pt.pid (k + (pt.missing (ways 0 k)).card) = false

lemma card_missing_mono (pt : Pagetree) (hik : i ≤ k) :
    (pt.missing (ways 0 i)).card ≤ (pt.missing (ways 0 k)).card :=
  Finset.card_le_card (Pagetree.missing_mono (ways_mono hik))

lemma Short.mono (h : Short i pt m) (hik : i ≤ k) : Short k pt m := by
  refine h.imp (fun hlt => Nat.lt_of_lt_of_le hlt hik) fun hno => not_grants_of_le hno ?_
  exact Nat.add_le_add hik (card_missing_mono pt hik)

/-- Page `i` of the table is the first that cannot be had. -/
def Jams (i : ℕ) (pt : Pagetree) (m : Memory) : Prop :=
  i ≤ treePages ∧ m.grants pt.pid (i + (pt.missing (ways 0 i)).card) = true ∧
    m.grants pt.pid (i + (pt.missing (ways 0 i)).card + 1) = false

/-- Page `i` of the table can be had, but there is no place for it, or not all blocks on the way
can. -/
def Spills (i : ℕ) (pt : Pagetree) (m : Memory) : Prop :=
  m.grants pt.pid (i + (pt.missing (ways 0 i)).card + 1) = true ∧ Short (i + 1) pt m

lemma Jams.short (h : Jams i pt m) : Short (i + 1) pt m := by
  refine .inr (not_grants_of_le h.2.2 ?_)
  have := card_missing_mono pt (Nat.le_add_right i 1)
  omega

lemma Spills.not_jams {j : ℕ} (h : Spills i pt m) : ¬ Jams j pt m := by
  rintro ⟨hj, hyes, hno⟩
  rcases Nat.lt_or_ge i j with hlt | hge
  · rcases h.2 with hfull | hfew
    · omega
    · have hle : (pt.missing (ways 0 (i + 1))).card ≤ _ := card_missing_mono pt hlt
      have hfew := not_grants_of_le hfew (show _ ≤ j + (pt.missing (ways 0 j)).card by omega)
      rw [hyes] at hfew
      cases hfew
  · have hle := card_missing_mono pt hge
    have hyes := grants_of_le h.1 (show j + (pt.missing (ways 0 j)).card + 1 ≤ _ by omega)
    rw [hno] at hyes
    cases hyes

/-- One of the `k` pages of a table cannot be had. -/
def Stuck (k : ℕ) (pt : Pagetree) (m : Memory) : Prop := ∃ i < k, Jams i pt m

/-- A page of the memory is held by nobody's hand. -/
structure Leaked (U : Finset Ppn) (T : Finset ι) (next : ι) (s s' : Forest ι) : Prop where
  sound : s'.Sound U T
  trees : ∀ u ≠ next, s'.tree u = s.tree u
  pins : ∀ q, (s'.mem.info q).piHwRef = (s.mem.info q).piHwRef
  hand : ∃ x, s'.hand = x :: s.hand

omit [DecidableEq ι] in
lemma Grown.short (h : Grown U T next 0 s0 i s')
    (hno : Refused i (s'.tree next) s'.mem pt) : Short (i + 1) (s0.tree next) s0.mem := by
  refine hno.1.imp Nat.lt_succ_of_le fun hfail => ?_
  rw [h.pid, h.spends.grants] at hfail
  rw [h.card_succ (Nat.zero_le i)]
  refine not_grants_of_le hfail ?_
  omega

lemma backTablePage_grown (hn : next ∈ T) (hi : i ≤ treePages) (h : Grown U T next 0 s0 i w.2) :
    wp (backTablePage next (s0.tree next).pid i : MapM ι V Unit)
      (fun _ w' => w'.1 = w.1 ∧ i < treePages ∧ Grown U T next 0 s0 (i + 1) w'.2)
      ⟨fun _ w' => w'.1 = w.1 ∧ Leaked U T next s0 w'.2 ∧ Spills i (s0.tree next) s0.mem,
       fun _ _ => Jams i (s0.tree next) s0.mem⟩ w := by
  simp only [backTablePage, putTablePage, wp_bind, wp_shared, wp_attempt]
  rw [← h.pid]
  refine wp_mono (Forest.takePage_place h.sound hn _) (fun x s1 h1 => ?_) (fun _ s1 h1 => ?_)
  · refine wp_mono (Forest.putPage_taken hn (h.filled.beyond i (Nat.le_refl i)) h1)
      (fun _ s2 h2 => ?_) (fun _ s2 h2 => ?_)
    · have hgrown := h.put (Nat.zero_le i) h2
      simp only [wp_rules, Forest.onMem, wp_zoom, pageZero]
      refine ⟨trivial, Pagetree.lt_of_page h2.page, hgrown.write (Nat.zero_le i) h2.page
        ⟨h2.sound.balanced.setBytes x zeroPage, h2.sound.fits⟩ (fun _ => rfl) (fun q hq => ?_)
        ⟨rfl, rfl, rfl, rfl, rfl, rfl⟩⟩
      simp [Memory.text, Memory.setBytes, hq]
    · obtain ⟨hsound, hbeside, hhand, hno⟩ := h2
      obtain ⟨-, -, hone, -⟩ := h1
      refine ⟨rfl, ⟨hsound, fun u hu => ?_, fun q => ?_, x, ?_⟩, ?_, h.short hno⟩
      · exact (hbeside.trees u hu).trans (h.beside.trees u hu)
      · exact (hbeside.pins q).trans (h.beside.pins q)
      · rw [hhand, h.hand]
      · rwa [h.pid, h.spends.grants] at hone
  · obtain ⟨-, hno⟩ := h1
    rw [h.pid, h.spends.grants] at hno
    exact ⟨hi, h.grants, hno⟩

lemma tablePages_grown (hn : next ∈ T) (h : Grown U T next 0 s0 0 w.2) (k : ℕ) :
    wp (loop (backTablePage next (s0.tree next).pid) 0 k : MapM ι V Unit)
      (fun _ w' => w'.1 = w.1 ∧ Grown U T next 0 s0 k w'.2 ∧ ¬ Short k (s0.tree next) s0.mem)
      ⟨fun _ w' => w'.1 = w.1 ∧ Leaked U T next s0 w'.2 ∧ Short k (s0.tree next) s0.mem ∧
        ¬ Stuck k (s0.tree next) s0.mem,
       fun _ _ => Short k (s0.tree next) s0.mem ∧ Stuck k (s0.tree next) s0.mem⟩ w := by
  refine wp_post (wp_loop (fun i w' => w'.1 = w.1 ∧ i ≤ treePages ∧ Grown U T next 0 s0 i w'.2) k 0
    w ⟨rfl, Nat.zero_le _, h⟩ fun i w1 _ hi h1 => ?_) fun _ w1 h1 => ?_
  · obtain ⟨hmap, hle, hgrown⟩ := h1
    refine wp_imp (backTablePage_grown hn hle hgrown) (fun _ w2 h2 => ?_) (fun _ w2 h2 => ?_)
      fun _ _ h2 => ⟨h2.short.mono (by omega), i, by omega, h2⟩
    · exact ⟨h2.1.trans hmap, h2.2.1, h2.2.2⟩
    · refine ⟨h2.1.trans hmap, h2.2.1, h2.2.2.2.mono (by omega), ?_⟩
      rintro ⟨j, -, hj⟩
      exact h2.2.2.not_jams hj
  rw [Nat.zero_add] at h1
  refine ⟨h1.1, h1.2.2, fun hshort => ?_⟩
  rcases hshort with hlt | hno
  · exact absurd h1.2.1 (Nat.not_le.mpr hlt)
  · have hgrants := h1.2.2.grants
    rw [Nat.sub_zero, hno] at hgrants
    cases hgrants

/-! ### Failure -/

lemma Leaked.losesOne {s : Forest ι} (h : Leaked U T next s s') (hs : s.Sound U T)
    (hn : next ∈ T) (h0 : (s.tree next).ledger = 0) (h0' : (s'.tree next).ledger = 0) :
    LosesOne s.mem s'.mem := by
  obtain ⟨x, hhand⟩ := h.hand
  refine ⟨x, Forest.freeCount_of_ledger hs h.sound ?_ h.pins⟩
  rw [Forest.ledger_split hn, Forest.ledger_split (s := s) hn, h0, h0', zero_add, zero_add,
    Forest.rest, Forest.rest, hhand, handLedger_cons, add_assoc]
  congr 1
  exact Finset.sum_congr rfl fun u hu => by rw [h.trees u (Finset.ne_of_mem_erase hu)]

/-- The state that a `rehash` that fails is to leave: the map, the set of free pages, all other
trees and what is in the pages are as they were. -/
structure Restored (T : Finset ι) (next : ι) (s s' : Map V × Forest ι) : Prop where
  map : s'.1 = s.1
  free : ∀ q, s'.2.mem.freeCount q = s.2.mem.freeCount q
  trees : ∀ u ≠ next, s'.2.tree u = s.2.tree u
  text : ∀ q, 0 < s.2.ledger T (.ent q) → s'.2.mem.text q = s.2.mem.text q

/-- What becomes of a `rehash` is decided by the calls of `page_alloc` that it is going to
make. -/
lemma rehash_outcome (hback : ∀ b, back b ∈ T) (h : Backed U T back s) (hh : Holds s.1.table f) :
    wp (rehash back) (fun _ s' => ¬ Short (nextPages s.1) (pagetreeInit false s.1.pid) s.2.mem ∧
        Holds s'.1.table f ∧ s.1.table.capacity < s'.1.table.capacity ∧
        s.2.Aside U T (Set.range back) s'.2)
      ⟨fun _ s' => Short (nextPages s.1) (pagetreeInit false s.1.pid) s.2.mem ∧
        ¬ Stuck (nextPages s.1) (pagetreeInit false s.1.pid) s.2.mem ∧ s'.1 = s.1 ∧
        s.2.Aside U T (Set.range back) s'.2 ∧ LosesOne s.2.mem s'.2.mem,
       fun _ _ => Short (nextPages s.1) (pagetreeInit false s.1.pid) s.2.mem ∧
        Stuck (nextPages s.1) (pagetreeInit false s.1.pid) s.2.mem⟩ s := by
  set next := back !s.1.cur with hnext
  set s0 : Forest ι := s.2.withTree next (pagetreeInit false s.1.pid) s.2.mem with hs0
  have htree : s0.tree next = pagetreeInit false s.1.pid := Forest.withTree_tree_self
  have hsound : s0.Sound U T := Sound.initTree h.sound (hback _) h.idle false s.1.pid
  have hgrown : Grown U T next 0 s0 0 s0 := by
    refine .refl hsound ⟨fun k hk => absurd hk (Nat.not_lt_zero k), fun k _ => ?_,
      fun j k q hj _ => ?_⟩
    · rw [htree, Pagetree.page_init]
    · rw [htree, Pagetree.page_init] at hj
      cases hj
  have hloop := tablePages_grown (V := V) (w := (s.1, s0)) (hback _) hgrown (nextPages s.1)
  rw [htree] at hloop
  -- the other trees are not looked at
  have hother : ∀ u ∉ Set.range back, ∀ b, u ≠ back b := fun u hu b heq => hu ⟨b, heq.symm⟩
  have hothers : ∀ u ∉ Set.range back, s0.tree u = s.2.tree u := fun u hu =>
    Forest.withTree_tree_of_ne (hother u hu _)
  simp only [rehash, Forest.initTree, wp_rules, wp_shared, wp_onErr]
  refine wp_imp hloop (fun _ r hr => ?_) (fun _ r hr => ?_) fun _ _ => id
  · obtain ⟨hmap, hgrown', hfit⟩ := hr
    obtain ⟨hpow, hlarger, -⟩ := nextPages_spec h.cap
      ((le_nextPages _).trans (Nat.not_lt.mp fun hlt => hfit (.inl hlt))) hh
    simp only [onTable, wp_zoom, wp_put]
    refine wp_of_never (rehashInto_toList hh (fun _ => hpow) (hh.size_le.trans hlarger.le))
      fun _ t' ht' => ?_
    refine wp_imp (wp_and (Forest.free_sound (hback s.1.cur) hgrown'.sound)
      (Forest.free_spec (L := ∅) hgrown'.sound (by simp) (hback s.1.cur) (by simp)))
      (fun _ s3 h3 => ?_) (fun _ _ h3 => h3.2.elim) fun _ _ h3 => h3.2.elim
    obtain ⟨hsound3, -, honly, -⟩ := h3
    refine ⟨hfit, ht'.1, ?_, hsound3, fun u hu => ?_, fun q => ?_, ?_⟩
    · rw [ht'.2]
      exact hlarger
    · obtain ⟨pt', m', rfl, -⟩ := honly.tree
      rw [Forest.withTree_tree_of_ne (hother u hu _), hgrown'.beside.trees u (hother u hu _),
        hothers u hu]
    · exact (honly.pins q).trans (hgrown'.beside.pins q)
    · rw [honly.hand, hgrown'.hand]
      exact List.Subset.refl _
  · obtain ⟨hmap, hleak, hshort, hstuck⟩ := hr
    refine wp_imp (wp_and (Forest.free_sound (hback _) hleak.sound)
      (Forest.free_spec (L := ∅) hleak.sound (by simp) (hback _) (by simp)))
      (fun _ s3 h3 => ⟨hshort, hstuck, hmap, ?_⟩) (fun _ _ h3 => h3.2.elim)
      fun _ _ h3 => h3.2.elim
    obtain ⟨hsound3, -, honly, hempty⟩ := h3
    have hleak3 : Leaked U T next s0 s3 := by
      refine ⟨hsound3, fun u hu => ?_, fun q => (honly.pins q).trans (hleak.pins q), ?_⟩
      · obtain ⟨pt', m', rfl, -⟩ := honly.tree
        rw [Forest.withTree_tree_of_ne hu, hleak.trees u hu]
      · rw [honly.hand]
        exact hleak.hand
    refine ⟨⟨hsound3, fun u hu => ?_, hleak3.pins, ?_⟩,
      hleak3.losesOne hsound (hback _) ?_ hempty.ledger⟩
    · rw [hleak3.trees u (hother u hu _), hothers u hu]
    · obtain ⟨x, hx⟩ := hleak3.hand
      rw [hx]
      exact List.subset_cons_self x s.2.hand
    · rw [htree]
      exact Pagetree.Empty.ledger ⟨fun _ _ => rfl, fun _ _ => rfl⟩

/-- **Growing a map is atomic when it does not fail.** A `rehash` keeps the map, or returns an
error and leaves everything as it was, if and only if the next table has a place in its tree and
all calls of `page_alloc` for its pages and for the blocks of the tree are going to succeed. (The
size of the new table is an `int`.) -/
theorem rehash_atomic_iff (hback : ∀ b, back b ∈ T) (h : Backed U T back s)
    (hh : Holds s.1.table f) :
    wp (rehash back) (fun _ s' => s.1.table.capacity < 2 ^ 30 → Holds s'.1.table f)
      ⟨fun _ s' => Restored T (back !s.1.cur) s s', fun _ _ => False⟩ s ↔
    nextPages s.1 ≤ treePages ∧
      s.2.mem.grants s.1.pid (nextPages s.1 + (ways 0 (nextPages s.1)).card) = true := by
  have hshort : Short (nextPages s.1) (pagetreeInit false s.1.pid) s.2.mem ↔
      ¬ (nextPages s.1 ≤ treePages ∧
        s.2.mem.grants s.1.pid (nextPages s.1 + (ways 0 (nextPages s.1)).card) = true) := by
    rw [Short, Pagetree.missing_init, not_and_or, Nat.not_le, Bool.not_eq_true]
    rfl
  have hout := rehash_outcome hback h hh
  rw [hshort] at hout
  constructor
  · intro hatomic
    have hboth := wp_and hout hatomic
    simp only [wp] at hboth
    by_contra hno
    rcases hrun : rehash back s with ⟨_ | _ | _, s'⟩ <;> rw [hrun] at hboth
    · exact hboth.1.1 hno
    · -- an error has cost a page
      obtain ⟨⟨-, -, -, -, hloses⟩, hrestored⟩ := hboth
      obtain ⟨q, hfree, hlost⟩ := hloses.lost h.sound.balanced
      have := hrestored.free q
      omega
    · exact hboth.2
  · intro hfit
    exact wp_imp hout (fun _ _ hs _ => hs.2.1) (fun _ _ hs => (hs.1 hfit).elim)
      fun _ _ hs => (hs.1 hfit).elim

/-- There are pages for the next table, and the map takes them. -/
def grows (s : Map Bool × Forest Bool) : Bool :=
  decide ((nextPages s.1 ≤ treePages ∧
    s.2.mem.grants s.1.pid (nextPages s.1 + (ways 0 (nextPages s.1)).card) = true) ∧
    s.1.table.capacity < 2 ^ 30) && ((rehash id).result s).isSome

/-- The table of a map with 180 entries is exchanged for one of two pages. -/
theorem rehash_atomic_iff_puts :
    ∃ answers s f s', (mapping id).trace (puts 180) (mapInit 0, bare) = some (answers, s) ∧
      reference.trace (puts 180) ∅ = some (answers, f) ∧
      (rehash id).result s = some ((), s') ∧ Holds s'.1.table f := by
  have hempty : ∀ b, (bare.tree b).Empty := fun _ => ⟨fun _ _ => rfl, fun _ _ => rfl⟩
  have hback : ∀ b : Bool, id b ∈ Finset.univ := fun _ => Finset.mem_univ _
  obtain ⟨answers, s, f, hs, hf, hran⟩ := ran_of_meets hback (by decide) bare_sound hempty 0
    (puts 180) (by decide +kernel) (by decide +kernel)
  have hgrows : ((mapping id).trace (puts 180) (mapInit 0, bare)).map (grows ·.2) = some true := by
    decide +kernel
  rw [hs, Option.map_some, Option.some.injEq, grows, Bool.and_eq_true, decide_eq_true_eq] at hgrows
  obtain ⟨⟨hfit, hcap⟩, hok⟩ := hgrows
  obtain ⟨⟨⟨⟩, s'⟩, hr⟩ := Option.isSome_iff_exists.mp hok
  have hatomic := (rehash_atomic_iff hback hran.1.backed hran.1.holds).mpr hfit
  exact ⟨answers, s, f, s', hs, hf, hr, wp_ok hatomic (result_eq_some.mp hr) hcap⟩

/-- A map that has never been put to, on a machine of `n` pages. -/
def newMap (n : ℕ) : Map Bool × Forest Bool :=
  (mapInit 0, { tree := fun _ => pagetreeInit false 0, hand := [], mem := bootMemory n })

lemma newMap_backed (n : ℕ) : Backed (Finset.range n) Finset.univ id (newMap n) :=
  ⟨Forest.Sound.init ⟨bootMemory_boot n, rfl, fun _ _ => ⟨false, 0, rfl⟩⟩, (Nat.zero_mul _).symm,
    ⟨fun _ _ => rfl, fun _ _ => rfl⟩, fun i hi => absurd hi (Nat.not_lt_zero i)⟩

lemma newMap_holds (n : ℕ) : Holds (newMap n).1.table ∅ := by
  have hinit : Holds (hashInit 0 : Hashtable Bool) ∅ := Holds.init fun h => absurd h (by decide)
  exact hinit

def grownMap (s : Map Bool × Forest Bool) : Map Bool × Forest Bool := (rehash id s).2

lemma grownMap_backed {f : Finmap fun _ : ℕ => Bool} {s : Map Bool × Forest Bool}
    (h : Backed U Finset.univ id s) (hh : Holds s.1.table f) (hfit : nextPages s.1 ≤ treePages)
    (hok : ((rehash id).result s).isSome = true) :
    Backed U Finset.univ id (grownMap s) ∧ Holds (grownMap s).1.table f := by
  obtain ⟨⟨⟨⟩, s'⟩, hr⟩ := Option.isSome_iff_exists.mp hok
  have hrun := result_eq_some.mp hr
  have hspec := wp_ok (rehash_spec (fun _ => Finset.mem_univ _) (fun b => (Bool.not_ne_self b).symm)
    h hh hfit) hrun
  rw [grownMap, hrun]
  exact ⟨hspec.1, hspec.2.1⟩

/-- **A map does not survive an allocation that fails.** Without any page the machine panics. On a
machine of six pages a map of two pages is to get four and has a page less to grow into after
every attempt. -/
theorem rehash_not_atomic :
    ((rehash id).next (newMap 0)).isNone = true ∧
    ∃ s : Map Bool × Forest Bool, Backed (Finset.range 6) Finset.univ id s ∧ Holds s.1.table ∅ ∧
      ∃ s', (rehash id).failed s = some s' ∧
        s.2.mem.freeCount 5 = 1 ∧ s'.2.mem.freeCount 5 = 0 := by
  have h1 := grownMap_backed (newMap_backed 6) (newMap_holds 6) (by decide +kernel)
    (by decide +kernel)
  have h2 := grownMap_backed h1.1 h1.2 (by decide +kernel) (by decide +kernel)
  obtain ⟨s', hr, hcount⟩ : ∃ s' ∈ (rehash id).failed (grownMap (grownMap (newMap 6))),
      s'.2.mem.freeCount 5 = 0 := by decide +kernel
  exact ⟨by decide +kernel, _, h2.1, h2.2, s', hr, by decide +kernel, hcount⟩

end Corey.Kern
