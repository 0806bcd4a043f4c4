import Corey.Mem.Places

/-!
What it takes to drop the pages of a tree.

A page that one entry alone refers to goes back to the allocator when the entry is cleared. But
the entry is found by the walk that also serves growing, so on the way to a place that was never
filled the missing blocks are allocated.
-/

namespace Corey.Mem

open Function Corey.Comp Memory Pagetree

variable {ι : Type} [DecidableEq ι] {U : Finset Ppn} {T : Finset ι} {R : Ledger} {m : Memory}
  {s s' : Forest ι} {t : ι} {pt : Pagetree} {i j k n : ℕ} {q x : Ppn}

/-! ### One entry -/

lemma pagetreeDecref_last {L : Ledger} (h : Balanced U m L) (hq : m.refs L q = 1) :
    wp (pagetreeDecref q) (fun _ m' => Trades 0 1 m m') .any m := by
  have hU : q ∈ U := by
    have honce := (h.page q).once
    rw [hq] at honce
    split_ifs at honce with hU
    · exact hU
    · omega
  obtain ⟨i, hi⟩ : ∃ i : PageInfo, { m.info q with piRef := atomicDec (m.info q).piRef } = i :=
    ⟨_, rfl⟩
  have hzero : i.piRef = 0 := by
    rw [← hi, (h.page q).ref, hq]
    rfl
  have hhw : i.piHwpage ≠ true := by
    rw [← hi, (h.page q).hwpage hU]
    simp
  have hinfo : (m.setInfo q i).info q = i := update_self ..
  simp only [pagetreeDecref, wp_rules, hi, hinfo, pageFree]
  refine ⟨fun _ => ⟨fun _ => ⟨fun hno => (hhw hno).elim, fun _ => ⟨fun node hnode =>
    ⟨fun _ => ⟨h.wired, rfl, rfl, rfl, rfl, by simp, ?_⟩, fun _ => trivial⟩, fun _ => trivial⟩⟩,
    fun _ => trivial⟩, fun hno => (hno hzero).elim⟩
  have hnode' : node < m.nmemnode := archNodeByAddr_lt hnode
  exact freePages_insertHead hnode' q

/-- A place has been cleared: what was missing on the way is there, and a page that was there has
been given back. -/
structure Emptying (i : ℕ) (pt : Pagetree) (m : Memory) (r : Pagetree × Memory) : Prop where
  gains : pt.Gains (way i) r.1
  trades : Trades (pt.missing (way i)).card (if (pt.page i).isSome then 1 else 0) m r.2
  enough : (pt.missing (way i)).card ≤ m.freePages

lemma pagetreePutPage_filled (h : Balanced U m (pt.ledger + (inHand none + R)))
    (hq : pt.page i = some q) (hsole : m.refs (pt.ledger + (inHand none + R)) q = 1) :
    wp (pagetreePutPage i none) (fun _ r => Emptying i pt m r) .any (pt, m) := by
  obtain ⟨y, hy, hpage⟩ := page_some.mp hq
  have hmiss := missing_of_reached hy (reached_of_page hpage)
  rw [pagetreePutPage, wp_bind]
  refine wp_mono (wp_and (pagetreeGetEntp_spec h i) (pagetreeGetEntp_supply pt h.wired i))
    (fun x r hr => ?_) fun _ _ _ => trivial
  obtain ⟨pt1, m1⟩ := r
  obtain ⟨⟨hloc, hwalk, -, -⟩, hpaid, hsame⟩ := hr
  obtain rfl : pt1 = pt := hsame hmiss
  obtain rfl : x = y := Option.some.inj (hloc.symm.trans hy)
  have hrefs : m1.refs (pt1.ledger + (inHand none + R)) q = 1 := by
    rw [← hsole, Memory.refs, Memory.refs, hwalk.kept.hw]
  simp only [wp_focus, pagetreePutEnt, wp_rules, wp_shared]
  rw [pagetreeFreeEnt_some (e := (entAt x).get pt1) hpage]
  refine wp_mono (pagetreeDecref_last hwalk.balanced hrefs) (fun _ m2 h2 => ?_) fun _ _ _ => trivial
  refine ⟨fun b => ?_, ?_, ?_⟩
  · exact (iff_of_eq (congrArg (· = true) (set_has ..))).trans (hpaid.gains b)
  · have hspend := hpaid.spends
    rw [hmiss] at hspend ⊢
    rw [hq]
    exact hspend.trans h2
  · rw [hmiss]
    exact Nat.zero_le _

lemma pagetreePutPage_empty (h : Balanced U m (pt.ledger + (inHand none + R)))
    (hfit : Fits m (pt.ledger + (inHand none + R))) (hq : pt.page i = none) :
    wp (pagetreePutPage i none) (fun _ r => Emptying i pt m r)
      ⟨fun _ _ => treePages ≤ i ∨ m.grants pt.pid (pt.missing (way i)).card = false,
        fun _ _ => False⟩ (pt, m) := by
  refine wp_mono (pagetreePutPage_supply h hfit) (fun _ r hr => ?_) fun _ r hr => ?_
  · have hpaid := hr.1 fun x hx => (page_of_locate hx).symm.trans hq
    have hfree := hpaid.spends.free
    refine ⟨hpaid.gains, ?_, by omega⟩
    rw [hq]
    exact hpaid.spends
  · exact hr.imp And.left And.left

lemma pagetreePutPage_ents (h : Balanced U m (pt.ledger + (inHand none + R)))
    (hfit : Fits m (pt.ledger + (inHand none + R))) (i : ℕ) :
    wp (pagetreePutPage i none) (fun _ r => i < treePages ∧ ∀ x, r.1.ledger (.ent x) +
        (if pt.page i = some x then 1 else 0) = pt.ledger (.ent x)) .any (pt, m) := by
  refine wp_mono (pagetreePutPage_spec h hfit i) (fun _ r hr => ?_) fun _ _ _ => trivial
  obtain ⟨y, pt1, m1, hy, hwalk, hreach, htree, -⟩ := hr
  have hvalid := locate_valid hy
  refine ⟨?_, fun x => ?_⟩
  · by_contra hge
    rw [locate_eq_none.mpr (Nat.not_lt.mp hge)] at hy
    cases hy
  rw [htree, ledger_set hvalid hreach, ← hwalk.same.ents x,
    ledger_split hvalid hreach, hwalk.same.get y hvalid, page_of_locate hy,
    ledger_of_null rfl, zero_add, Pi.add_apply, Nat.add_comm]
  congr 1
  cases hp : (pt.get y).page with
  | none =>
    rw [ledger_of_null hp]
    rfl
  | some p =>
    rw [ledger_of_page hp, one_apply]
    simp [eq_comm]

/-! ### One place of a tree -/

namespace Forest

/-- The pages of a tree are its own: each has the one reference of its entry. -/
def Sole (T : Finset ι) (t : ι) (s : Forest ι) : Prop :=
  ∀ k q, (s.tree t).page k = some q → s.mem.refs (s.ledger T) q = 1

omit [DecidableEq ι] in
lemma refs_of_le (hq : s.mem.refs (s.ledger T) q = 1) (hpos : 0 < s'.ledger T (.ent q))
    (hle : s'.ledger T (.ent q) ≤ s.ledger T (.ent q))
    (hpins : (s'.mem.info q).piHwRef = (s.mem.info q).piHwRef) :
    s'.mem.refs (s'.ledger T) q = 1 := by
  rw [Memory.refs] at hq ⊢
  omega

omit [DecidableEq ι] in
lemma Sole.of_mem (h : Sole T t s) (htree : s'.tree = s.tree) (hhand : s'.hand = s.hand)
    (hpins : ∀ q, (s'.mem.info q).piHwRef = (s.mem.info q).piHwRef) : Sole T t s' := by
  intro k q hq
  rw [htree] at hq
  rw [← h k q hq, Memory.refs, Memory.refs, hpins, ledger, ledger, htree, hhand]

/-- The place `i` of a tree has been cleared. -/
structure Drops (U : Finset Ppn) (T : Finset ι) (t : ι) (i : ℕ) (s s' : Forest ι) : Prop where
  sound : s'.Sound U T
  beside : s.Beside t {i}ᶜ s'
  hand : s'.hand = s.hand
  page : (s'.tree t).page i = none
  cleared : Emptying i (s.tree t) s.mem (s'.tree t, s'.mem)
  lt : i < treePages
  ents : ∀ x, s'.ledger T (.ent x) + (if (s.tree t).page i = some x then 1 else 0) =
    s.ledger T (.ent x)

/-- A place of a tree whose pages are its own can be cleared if the blocks that are missing on the
way can be had. -/
lemma putNull_drops (h : s.Sound U T) (ht : t ∈ T)
    (hsole : ∀ q, (s.tree t).page i = some q → s.mem.refs (s.ledger T) q = 1) :
    wp (putNull t i) (fun _ s' => s.Drops U T t i s') ⟨fun _ _ => treePages ≤ i ∨
        s.mem.grants (s.tree t).pid ((s.tree t).missing (way i)).card = false,
        fun _ _ => False⟩ s := by
  obtain ⟨hb, hf⟩ := h.null ht
  rw [ledger_split ht, ← zero_add (s.rest T t)] at hsole
  have hclear : wp (pagetreePutPage i none) (fun _ r => Emptying i (s.tree t) s.mem r)
      ⟨fun _ _ => treePages ≤ i ∨
        s.mem.grants (s.tree t).pid ((s.tree t).missing (way i)).card = false,
        fun _ _ => True⟩ (s.tree t, s.mem) := by
    cases hq : (s.tree t).page i with
    | none =>
      exact wp_mono (pagetreePutPage_empty hb hf hq) (fun _ _ => id) fun _ _ => id
    | some q =>
      refine wp_mono
        (wp_and (pagetreePutPage_filled hb hq (hsole q hq)) (pagetreePutPage_supply hb hf))
        (fun _ _ hr => hr.1) fun _ _ hr => ?_
      exact hr.2.imp And.left And.left
  have hsound := putNull_sound ht h i
  simp only [Leaves, putNull, onTree, wp_zoom] at hsound ⊢
  refine wp_imp (wp_and (wp_and hsound (pagetreePutPage_place hb hf i))
    (wp_and hclear (pagetreePutPage_ents hb hf i))) (fun _ r hr => ?_) (fun _ _ hr => hr.2.1)
    fun _ _ hr => hr.1.2
  obtain ⟨⟨hsound, hbeside, hpage⟩, hclear, hlt, hents⟩ := hr
  refine ⟨hsound, .of_tree hbeside, rfl, by simpa using hpage, by simpa using hclear, hlt,
    fun x => ?_⟩
  have hents := hents x
  dsimp only at hents ⊢
  rw [ledger_update ht, ledger_split ht, Pi.add_apply, Pi.add_apply]
  omega

variable {z : Pagetree × Memory}

lemma Sole.got {mode : PageSharingMode} {r : Option Ppn} {y : EntPtr}
    {pt1 : Pagetree} {m1 : Memory} {e : PagetreeEntry} (hsole : Sole T t s) (ht : t ∈ T)
    (h : TreeGot U (s.rest T t) k mode (s.tree t) s.mem r z y pt1 m1 e) :
    Sole T t { s with tree := update s.tree t z.1, mem := z.2 } := by
  obtain ⟨pt2, m2⟩ := z
  obtain rfl : pt2 = pt1.set e y := h.tree
  have hvalid := locate_valid h.place
  have hget : pt1.get y = (s.tree t).get y := h.walked.same.get y hvalid
  have hpins : ∀ q, (m2.info q).piHwRef = (s.mem.info q).piHwRef := fun q =>
    (h.kept.hw q).trans (h.walked.kept.hw q)
  have hnew : ∀ q, ledger T { s with tree := update s.tree t (pt1.set e y), mem := m2 }
      (.ent q) = e.ledger (.ent q) + (pt1.others y (.ent q) + s.rest T t (.ent q)) := fun q => by
    rw [ledger_update ht, Pagetree.ledger_set hvalid h.reached, Pi.add_apply, Pi.add_apply,
      Nat.add_assoc]
  have hold : ∀ q, s.ledger T (.ent q) = ((s.tree t).get y).ledger (.ent q) +
      (pt1.others y (.ent q) + s.rest T t (.ent q)) := fun q => by
    rw [ledger_split ht, Pi.add_apply, ← h.walked.same.ents q,
      Pagetree.ledger_split hvalid h.reached, hget, Pi.add_apply, Nat.add_assoc]
  have hself : (pt1.set e y).page k = e.page := by
    rw [Pagetree.page_of_locate h.place, Pagetree.get_set_self h.reached]
  have hothers : ∀ j q, j ≠ k → (pt1.set e y).page j = some q →
      (s.tree t).page j = some q ∧ 0 < pt1.others y (.ent q) := fun j q hj hq => by
    rw [Pagetree.page_set_of_ne h.place hj] at hq
    refine ⟨(h.walked.same.page j).symm.trans hq, ?_⟩
    obtain ⟨y', hy', hq⟩ := Pagetree.page_some.mp hq
    refine others_pos hvalid (locate_valid hy') (fun heq => hj ?_) hq
    exact locate_inj (heq ▸ hy') h.place
  -- a fresh page is at no other place
  have hfresh : ∀ pp, m2.refs (pt1.others y + s.rest T t) pp = 0 → e = ⟨some pp, pageExcl⟩ →
      Sole T t { s with tree := update s.tree t (pt1.set e y), mem := m2 } := by
    rintro pp hzero rfl j q hq
    rw [Memory.refs, Pi.add_apply] at hzero
    replace hq : (pt1.set ⟨some pp, pageExcl⟩ y).page j = some q := by
      simpa only [update_self] using hq
    by_cases hj : j = k
    · subst hj
      obtain rfl : pp = q := Option.some.inj (hself.symm.trans hq)
      have hone : m2.refs (ledger T
          { s with tree := update s.tree t (pt1.set ⟨some pp, pageExcl⟩ y), mem := m2 })
          pp = 1 := by
        rw [Memory.refs, hnew, ledger_some, one_apply, if_pos rfl]
        omega
      exact hone
    · obtain ⟨hq', hpos⟩ := hothers j q hj hq
      have hne : q ≠ pp := by
        rintro rfl
        omega
      have hent : (PagetreeEntry.mk (some pp) pageExcl).ledger (.ent q) = 0 := by
        rw [ledger_some, one_apply, if_neg (by simpa using hne)]
      refine refs_of_le (hsole j q hq') ?_ ?_ (hpins q)
      · rw [hnew]
        omega
      · rw [hnew, hold, hent]
        omega
  have hcase := h.got
  cases hcase with
  | copied _ _ fresh _ _ => exact hfresh _ fresh rfl
  | demanded _ _ _ fresh _ => exact hfresh _ fresh rfl
  | kept _ _ =>
    intro j q hq
    replace hq : (pt1.set ((s.tree t).get y) y).page j = some q := by
      simpa only [update_self] using hq
    have hq' : (s.tree t).page j = some q := by
      by_cases hj : j = k
      · subst hj
        rw [Pagetree.page_of_locate h.place]
        exact hself.symm.trans hq
      · exact (hothers j q hj hq).1
    have hsame := (hnew q).trans (hold q).symm
    refine refs_of_le (hsole j q hq') ?_ (Nat.le_of_eq hsame) (hpins q)
    rw [hsame]
    exact ledger_pos_of_tree ht (Pagetree.ent_of_page hq')

lemma Sole.walked (hsole : Sole T t s) (ht : t ∈ T)
    (h : TreeWalked U (s.rest T t) (s.tree t) s.mem z) :
    Sole T t { s with tree := update s.tree t z.1, mem := z.2 } := by
  intro j q hq
  simp only [update_self] at hq
  rw [← hsole j q ((h.same.page j).symm.trans hq), Memory.refs, Memory.refs, ledger_update ht,
    ledger_split ht, Pi.add_apply, Pi.add_apply, h.same.ents, h.kept.hw]

lemma getPage_sole (h : s.Sound U T) (ht : t ∈ T) (hsole : Sole T t s) (k : ℕ)
    (mode : PageSharingMode) :
    wp (getPage t k mode) (fun r s' => s'.Sound U T ∧ Sole T t s' ∧ (s'.tree t).page k = r ∧
        ∀ j ≠ k, (s'.tree t).page j = (s.tree t).page j)
      ⟨fun _ s' => s'.Sound U T ∧ Sole T t s' ∧ ∀ j, (s'.tree t).page j = (s.tree t).page j,
        fun _ _ => True⟩ s := by
  refine (getPage_sound ht h k mode).and ?_
  obtain ⟨hb, hf⟩ := h.backed ht
  simp only [getPage, onTree, wp_zoom, Exits.comap, update_self]
  refine wp_mono (pagetreeGetPage_spec hb hf k mode) (fun r z hz => ?_) fun _ z hz => ?_
  · obtain ⟨y, pt1, m1, e, hgot⟩ := hz
    refine ⟨hsole.got ht hgot, ?_, fun j hj => ?_⟩
    · rw [hgot.tree, page_of_locate hgot.place, get_set_self hgot.reached, hgot.page]
    · rw [hgot.tree, page_set_of_ne hgot.place hj, hgot.walked.same.page]
  · exact ⟨hsole.walked ht hz.1, fun j => hz.1.same.page j⟩

end Forest

end Corey.Mem
