import Corey.Mem.Contents
import Corey.Mem.Supply

/-!
The pages of one tree by their numbers.

An array is a tree of which the places below a number are filled. It grows by fresh pages at
places that are empty and shrinks by emptying places that are filled; both leave the other places
of the tree and all other trees as they are.
-/

namespace Corey.Mem

open Function Corey.Comp Memory Finset Pagetree

variable {ι : Type} [DecidableEq ι] {U : Finset Ppn} {T : Finset ι} {s s' s'' : Forest ι} {t : ι}
  {pt pt' : Pagetree} {i j k : ℕ} {q x : Ppn} {K K' : Set ℕ} {m : Memory} {R : Ledger}
  {r : Pagetree × Memory}

/-! ### The page at a place -/

def Pagetree.page (pt : Pagetree) (k : ℕ) : Option Ppn := (locate k).bind fun x => (pt.get x).page

lemma Pagetree.page_of_locate {x : EntPtr} (h : locate k = some x) :
    pt.page k = (pt.get x).page := by rw [page, h, Option.bind_some]

lemma Pagetree.page_some :
    pt.page k = some q ↔ ∃ x, locate k = some x ∧ (pt.get x).page = some q :=
  Option.bind_eq_some_iff

lemma Pagetree.lt_of_page (h : pt.page k = some q) : k < treePages := by
  obtain ⟨x, hx, -⟩ := page_some.mp h
  by_contra hge
  rw [locate_eq_none.mpr (Nat.not_lt.mp hge)] at hx
  cases hx

lemma Pagetree.Same.page (h : pt.Same pt') (k : ℕ) : pt'.page k = pt.page k := by
  rw [Pagetree.page, Pagetree.page]
  cases hx : locate k with
  | none => rfl
  | some x => simp only [Option.bind_some, h.get x (locate_valid hx)]

lemma Pagetree.page_set_of_ne {x : EntPtr} {e : PagetreeEntry} (hx : locate i = some x)
    (hk : k ≠ i) : (pt.set e x).page k = pt.page k := by
  rw [page, page]
  cases hy : locate k with
  | none => rfl
  | some y =>
    have hne : y ≠ x := fun heq => hk (locate_inj (heq ▸ hy) hx)
    simp only [Option.bind_some, get_set_of_ne (locate_valid hx) (locate_valid hy) hne]

lemma Pagetree.page_init {demand : Bool} {pid : ℕ} : (pagetreeInit demand pid).page k = none := by
  rw [page]
  cases locate k with
  | none => rfl
  | some x => simp only [Option.bind_some, init_get]

lemma EntPtr.Valid.locate {x : EntPtr} (h : x.Valid) : locate x.index = some x := by
  have hloc := locate_spec x.index
  cases hy : Mem.locate x.index with
  | none =>
    rw [hy] at hloc
    exact absurd h.index_lt (Nat.not_lt.mpr hloc)
  | some y =>
    rw [hy] at hloc
    obtain ⟨hv, hidx⟩ := hloc
    have hdirect : ∀ i, directEntries ≤ blockStart i := fun i => Nat.le_add_right _ _
    have hblock : ∀ i j n, i < j → n < span (i + 1) → blockStart i + n < blockStart j := by
      intro i j n hij hn
      have hnext : blockStart (i + 1) = blockStart i + span (i + 1) := by
        simp only [blockStart, sum_range_succ]
        omega
      have : blockStart (i + 1) ≤ blockStart j := blockStart_mono hij
      omega
    cases x with
    | direct i =>
      cases y with
      | direct j => exact congrArg (some ∘ EntPtr.direct) hidx
      | indirect j n =>
        have := hdirect j
        simp only [EntPtr.index, EntPtr.Valid] at hidx h
        omega
    | indirect i n =>
      cases y with
      | direct j =>
        have := hdirect i
        simp only [EntPtr.index, EntPtr.Valid] at hidx hv
        omega
      | indirect j n' =>
        simp only [EntPtr.index, EntPtr.Valid] at hidx h hv
        rcases Nat.lt_trichotomy i j with hij | rfl | hij
        · have := hblock i j n hij h.2
          omega
        · rw [Nat.add_left_cancel hidx]
        · have := hblock j i n' hij hv.2
          omega

lemma Slot.exists_of_ent : ∀ {l : ℕ} (s : Slot l), 0 < s.ledger (.ent q) →
    ∃ n < span l, (s.entry n).page = some q
  | 0, .ent e, h => by
    refine ⟨0, Nat.one_pos, ?_⟩
    change 0 < e.ledger (.ent q) at h
    cases hp : e.page with
    | none =>
      rw [ledger_of_null hp] at h
      exact absurd h (Nat.lt_irrefl 0)
    | some p =>
      rw [ledger_of_page hp, one_apply] at h
      split_ifs at h with heq
      · cases heq
        exact hp
      · exact absurd h (Nat.lt_irrefl 0)
  | _ + 1, .null, h => absurd h (Nat.lt_irrefl 0)
  | l + 1, .block p f, h => by
    have hsum : (Slot.block p f).ledger (.ent q) =
        ∑ i ∈ range (width l), (f i).ledger (.ent q) := by
      simp [Slot.ledger, one_apply, Finset.sum_apply]
    rw [hsum, sum_pos_iff] at h
    obtain ⟨i, hi, hpos⟩ := h
    obtain ⟨n, hn, hpage⟩ := Slot.exists_of_ent (f i) hpos
    rw [mem_range] at hi
    refine ⟨span l * i + n, ?_, ?_⟩
    · calc span l * i + n < span l * i + span l := Nat.add_lt_add_left hn _
        _ = span l * (i + 1) := (Nat.mul_succ _ _).symm
        _ ≤ span l * width l := Nat.mul_le_mul_left _ hi
        _ = span (l + 1) := Nat.mul_comm _ _
    · rw [Slot.entry, Nat.mul_add_div (span_pos l), Nat.div_eq_of_lt hn, Nat.add_zero,
        Nat.mul_add_mod, Nat.mod_eq_of_lt hn]
      exact hpage

lemma Pagetree.exists_of_ent (h : 0 < pt.ledger (.ent q)) : ∃ k, pt.page k = some q := by
  have hex : ∃ x : EntPtr, x.Valid ∧ (pt.get x).page = some q := by
    rw [ledger, Pi.add_apply, Finset.sum_apply, Finset.sum_apply] at h
    rcases Nat.add_pos_iff_pos_or_pos.mp h with hd | hi
    · obtain ⟨i, hi, hpos⟩ := sum_pos_iff.mp hd
      obtain ⟨n, -, hpage⟩ := Slot.exists_of_ent (.ent (pt.ptDirect i)) hpos
      exact ⟨.direct i, mem_range.mp hi, hpage⟩
    · obtain ⟨i, hi, hpos⟩ := sum_pos_iff.mp hi
      obtain ⟨n, hn, hpage⟩ := Slot.exists_of_ent (pt.ptIndir i) hpos
      exact ⟨.indirect i n, ⟨mem_range.mp hi, hn⟩, hpage⟩
  obtain ⟨x, hx, hpage⟩ := hex
  exact ⟨x.index, (page_of_locate hx.locate).trans hpage⟩

lemma Pagetree.ent_of_page (h : pt.page k = some q) : 0 < pt.ledger (.ent q) := by
  obtain ⟨x, hx, hq⟩ := page_some.mp h
  exact Forest.ent_pos (locate_valid hx) hq

/-- A tree and its memory have been worked on, but not the places in `K`. -/
structure TreeBeside (K : Set ℕ) (x y : Pagetree × Memory) : Prop where
  pid : y.1.pid = x.1.pid
  pins : ∀ q, (y.2.info q).piHwRef = (x.2.info q).piHwRef
  page : ∀ k ∈ K, y.1.page k = x.1.page k
  text : ∀ k ∈ K, ∀ q, x.1.page k = some q → y.2.text q = x.2.text q

lemma TreeWalked.beside (h : TreeWalked U R pt m r) : TreeBeside K (pt, m) r where
  pid := h.same.pid
  pins := h.kept.hw
  page k _ := h.same.page k
  text k _ q hq := by
    refine h.kept.text ?_
    exact Nat.lt_of_lt_of_le (ent_of_page hq) (Nat.le_add_right _ _)

lemma pagetreePutPage_place {page : Option Ppn} (h : Balanced U m (pt.ledger + (inHand page + R)))
    (hfit : Fits m (pt.ledger + (inHand page + R))) (i : ℕ) : wp (pagetreePutPage i page)
      (fun _ r => TreeBeside {i}ᶜ (pt, m) r ∧ r.1.page i = page)
      ⟨fun _ r => TreeBeside Set.univ (pt, m) r, fun _ _ => False⟩ (pt, m) := by
  refine wp_mono (pagetreePutPage_spec h hfit i) (fun _ r hr => ?_) fun _ r hr => hr.1.beside
  obtain ⟨pt2, m2⟩ := r
  obtain ⟨x, pt1, m1, hx, hwalk, hreach, rfl, -, hkept, -⟩ := hr
  have hbeside : TreeBeside Set.univ (pt, m) (pt1, m1) := hwalk.beside
  refine ⟨⟨?_, fun q => (hkept.hw q).trans (hbeside.pins q), fun k hk => ?_, fun k hk q hq => ?_⟩,
    ?_⟩
  · refine Eq.trans ?_ hbeside.pid
    cases x <;> rfl
  · exact (page_set_of_ne hx hk).trans (hbeside.page k trivial)
  · refine Eq.trans (hkept.text ?_) (hbeside.text k trivial q hq)
    have hset : (pt1.set {} x).page k = some q :=
      (page_set_of_ne hx hk).trans ((hbeside.page k trivial).trans hq)
    exact Nat.lt_of_lt_of_le (ent_of_page hset) (Nat.le_add_right _ _)
  · exact (page_of_locate hx).trans (by rw [get_set_self hreach])

/-- A new page at place `i` has been refused. The tree has the blocks it had if none was missing
on the way, or if there was no second page to be had. -/
def Refused (i : ℕ) (pt : Pagetree) (m : Memory) (pt' : Pagetree) : Prop :=
  (treePages ≤ i ∨ m.grants pt.pid (1 + (pt.missing (way i)).card) = false) ∧
    (pt.missing (way i) = ∅ ∨ m.grants pt.pid 2 = false → pt.SameNodes pt')

namespace Forest

/-! ### Work on one tree -/

/-- Only the tree `t` has been worked on, and the places in `K` have not changed. -/
structure Beside (t : ι) (K : Set ℕ) (s s' : Forest ι) : Prop where
  trees : ∀ u ≠ t, s'.tree u = s.tree u
  pid : (s'.tree t).pid = (s.tree t).pid
  pins : ∀ q, (s'.mem.info q).piHwRef = (s.mem.info q).piHwRef
  page : ∀ k ∈ K, (s'.tree t).page k = (s.tree t).page k
  text : ∀ k ∈ K, ∀ q, (s.tree t).page k = some q → s'.mem.text q = s.mem.text q

namespace Beside

omit [DecidableEq ι]

lemma refl (s : Forest ι) : s.Beside t K s :=
  ⟨fun _ _ => rfl, rfl, fun _ => rfl, fun _ _ => rfl, fun _ _ _ _ => rfl⟩

lemma trans (h : s.Beside t K s') (h' : s'.Beside t K s'') : s.Beside t K s'' where
  trees u hu := (h'.trees u hu).trans (h.trees u hu)
  pid := h'.pid.trans h.pid
  pins q := (h'.pins q).trans (h.pins q)
  page k hk := (h'.page k hk).trans (h.page k hk)
  text k hk q hq := (h'.text k hk q ((h.page k hk).trans hq)).trans (h.text k hk q hq)

lemma mono (h : s.Beside t K s') (hK : K' ⊆ K) : s.Beside t K' s' where
  trees := h.trees
  pid := h.pid
  pins := h.pins
  page k hk := h.page k (hK hk)
  text k hk := h.text k (hK hk)

lemma of_kept {L : Ledger} (htree : s'.tree = s.tree) (hk : Kept L s.mem s'.mem)
    (hL : ∀ q, 0 < (s.tree t).ledger (.ent q) → 0 < L (.ent q)) : s.Beside t K s' where
  trees _ _ := by rw [htree]
  pid := by rw [htree]
  pins := hk.hw
  page _ _ := by rw [htree]
  text _ _ q hq := hk.text (hL q (ent_of_page hq))

lemma next (h : s.Beside t (Set.Ico i j)ᶜ s') (hij : i ≤ j) (h' : s'.Beside t {j}ᶜ s'') :
    s.Beside t (Set.Ico i (j + 1))ᶜ s'' := by
  have hless : (Set.Ico i (j + 1))ᶜ ⊆ (Set.Ico i j)ᶜ := fun k hk hmem =>
    hk ⟨hmem.1, Nat.lt_succ_of_lt hmem.2⟩
  have hone : (Set.Ico i (j + 1))ᶜ ⊆ {j}ᶜ := by
    rintro k hk rfl
    exact hk ⟨hij, Nat.lt_succ_self k⟩
  exact (h.mono hless).trans (h'.mono hone)

lemma all (h : s.Beside t K s')
    (hK : ∀ k ∉ K, (s.tree t).page k = none ∧ (s'.tree t).page k = none) :
    s.Beside t Set.univ s' where
  trees := h.trees
  pid := h.pid
  pins := h.pins
  page k _ := by
    by_cases hk : k ∈ K
    · exact h.page k hk
    · rw [(hK k hk).1, (hK k hk).2]
  text k _ q hq := by
    by_cases hk : k ∈ K
    · exact h.text k hk q hq
    · rw [(hK k hk).1] at hq
      cases hq

end Beside

lemma Beside.of_tree (h : TreeBeside K (s.tree t, s.mem) r) :
    s.Beside t K { s with tree := update s.tree t r.1, mem := r.2 } where
  trees _ hu := update_of_ne hu _ _
  pid := (congrArg Pagetree.pid (update_self t r.1 s.tree)).trans h.pid
  pins := h.pins
  page k hk := (congrArg (·.page k) (update_self t r.1 s.tree)).trans (h.page k hk)
  text := h.text

lemma Sound.free_of_beside (h : s.Sound U T) (h' : s'.Sound U T) (ht : t ∈ T)
    (hb : s.Beside t Set.univ s') (hhand : s'.hand = s.hand)
    (hnodes : (s.tree t).SameNodes (s'.tree t)) (q : Ppn) :
    s'.mem.freeCount q = s.mem.freeCount q := by
  have hrest : s'.rest T t = s.rest T t := by
    rw [rest, rest, hhand]
    congr 1
    exact sum_congr rfl fun u hu => by rw [hb.trees u (ne_of_mem_erase hu)]
  have hent : 0 < (s'.tree t).ledger (.ent q) ↔ 0 < (s.tree t).ledger (.ent q) := by
    constructor
    · intro hpos
      obtain ⟨k, hk⟩ := exists_of_ent hpos
      exact ent_of_page ((hb.page k trivial).symm.trans hk)
    · intro hpos
      obtain ⟨k, hk⟩ := exists_of_ent hpos
      exact ent_of_page ((hb.page k trivial).trans hk)
  have hone := (h.balanced.page q).once
  have hone' := (h'.balanced.page q).once
  simp only [Memory.refs, ledger_split ht, Pi.add_apply, hrest, hb.pins q, hnodes q,
    tree_held] at hone hone'
  omega

/-! ### Filling and emptying a place -/

lemma ledger_pos_of_tree (ht : t ∈ T) (hq : 0 < (s.tree t).ledger (.ent q)) :
    0 < s.ledger T (.ent q) := by
  rw [ledger_split ht]
  exact Nat.lt_of_lt_of_le hq (Nat.le_add_right _ _)

lemma Handed.beside {l : List Ppn} (h : Handed U T l s s') (ht : t ∈ T) : s.Beside t Set.univ s' :=
  .of_kept h.tree h.kept fun _ => ledger_pos_of_tree ht

lemma takePage_place (h : s.Sound U T) (ht : t ∈ T) (pid : ℕ) :
    wp (takePage pid) (fun x s' => Handed U T (x :: s.hand) s s' ∧
        (∀ k, (s.tree t).page k ≠ some x) ∧ s.mem.grants pid 1 = true ∧ Spends 1 s.mem s'.mem)
      ⟨fun _ s' => Handed U T s.hand s s' ∧ s.mem.grants pid 1 = false, fun _ _ => False⟩ s := by
  have hsupply : wp (takePage pid)
      (fun _ s' => s.mem.grants pid 1 = true ∧ Spends 1 s.mem s'.mem)
      ⟨fun _ _ => s.mem.grants pid 1 = false, fun _ _ => True⟩ s := by
    simp only [takePage, onMem, wp_rules, wp_zoom]
    exact pageAlloc_supply pid h.balanced.wired
  refine wp_imp (wp_and (takePage_spec h pid) hsupply)
    (fun x s' hs => ⟨hs.1.1, fun k hk => ?_, hs.2⟩) (fun _ _ hs => ⟨hs.1.1, hs.2⟩) fun _ _ hs => hs.1
  exact (ledger_pos_of_tree ht (ent_of_page hk)).ne' hs.1.1.fresh.1

lemma putPage_place (h : s.Sound U T) (ht : t ∈ T) (hx : x ∈ s.hand)
    (hnone : (s.tree t).page i = none) :
    wp (putPage t i x) (fun _ s' => s'.Sound U T ∧ s.Beside t {i}ᶜ s' ∧ s'.hand = s.hand.erase x ∧
        (s'.tree t).page i = some x ∧ Paid i (s.tree t) s.mem (s'.tree t, s'.mem) ∧
        ((s.tree t).missing (way i) = ∅ → (s.tree t).SameNodes (s'.tree t)))
      ⟨fun _ s' => s'.Sound U T ∧ s.Beside t Set.univ s' ∧ s'.hand = s.hand ∧
        Unpaid i (s.tree t) s.mem (s'.tree t, s'.mem), fun _ _ => False⟩ s := by
  refine (putPage_sound ht hx h i).and ?_
  obtain ⟨hb, hf⟩ := h.hand ht hx
  have hempty : ∀ y, locate i = some y → ((s.tree t).get y).page = none := fun y hy => by
    rw [← page_of_locate hy, hnone]
  simp only [putPage, onTree, drop, wp_rules, wp_zoom, update_self]
  refine wp_imp (wp_and (pagetreePutPage_place hb hf i) (pagetreePutPage_supply hb hf))
    (fun _ r hr => ?_) (fun _ r hr => ?_) fun _ _ hr => hr.1
  · obtain ⟨⟨hbeside, hpage⟩, hpaid, hnodes⟩ := hr
    have hb' := Beside.of_tree hbeside
    exact ⟨⟨hb'.trees, hb'.pid, hb'.pins, hb'.page, hb'.text⟩, trivial, hpage, hpaid hempty, hnodes⟩
  · exact ⟨.of_tree hr.1, rfl, by simpa using hr.2⟩

/-- A fresh page has been put at place `i`. -/
structure Placed (U : Finset Ppn) (T : Finset ι) (t : ι) (i : ℕ) (x : Ppn) (s s' : Forest ι) :
    Prop where
  sound : s'.Sound U T
  beside : s.Beside t {i}ᶜ s'
  hand : s'.hand = s.hand
  page : (s'.tree t).page i = some x
  fresh : ∀ k, (s.tree t).page k ≠ some x
  grants : s.mem.grants (s.tree t).pid (1 + ((s.tree t).missing (way i)).card) = true
  spends : Spends (1 + ((s.tree t).missing (way i)).card) s.mem s'.mem
  gains : (s.tree t).Gains (way i) (s'.tree t)
  nodes : (s.tree t).missing (way i) = ∅ → (s.tree t).SameNodes (s'.tree t)

lemma putPage_taken {s1 : Forest ι} (ht : t ∈ T) (hnone : (s.tree t).page i = none)
    (h : Handed U T (x :: s.hand) s s1 ∧ (∀ k, (s.tree t).page k ≠ some x) ∧
      s.mem.grants (s.tree t).pid 1 = true ∧ Spends 1 s.mem s1.mem) :
    wp (putPage t i x) (fun _ s' => s.Placed U T t i x s')
      ⟨fun _ s' => s'.Sound U T ∧ s.Beside t Set.univ s' ∧ s'.hand = x :: s.hand ∧
        Refused i (s.tree t) s.mem (s'.tree t), fun _ _ => False⟩ s1 := by
  obtain ⟨htaken, hfresh, hone, hspend⟩ := h
  have hbeside := htaken.beside ht
  obtain ⟨hsound, htree, hhand, -⟩ := htaken
  have hx : x ∈ s1.hand := by
    rw [hhand]
    exact List.mem_cons_self
  refine wp_mono (putPage_place hsound ht hx (by rw [htree]; exact hnone)) (fun _ s2 h2 => ?_)
    fun _ s2 h2 => ?_
  · obtain ⟨hsound2, hbeside2, hhand2, hpage, hpaid, hnodes⟩ := h2
    rw [htree] at hpaid hnodes
    refine ⟨hsound2, (hbeside.mono (Set.subset_univ _)).trans hbeside2, ?_, hpage, hfresh, ?_,
      hspend.trans hpaid.spends, hpaid.gains, hnodes⟩
    · rw [hhand2, hhand, List.erase_cons_head]
    · rw [← hspend.grants]
      exact hpaid.grants
  · obtain ⟨hsound2, hbeside2, hhand2, hno⟩ := h2
    rw [htree] at hno
    refine ⟨hsound2, hbeside.trans hbeside2, hhand2.trans hhand, ?_⟩
    rcases hno with ⟨hle, hsame⟩ | ⟨hno, hsame⟩
    · exact ⟨.inl hle, fun _ q => by rw [show s2.tree t = s.tree t from hsame]⟩
    · refine ⟨.inr (hspend.grants.symm.trans hno), fun hcase q => ?_⟩
      rcases hcase with hmiss | htwo
      · rw [hmiss] at hno
        cases hno
      · rw [show s2.tree t = s.tree t from hsame (hspend.grants.trans htwo)]

lemma putNull_place (h : s.Sound U T) (ht : t ∈ T) (hq : (s.tree t).page i = some q) :
    wp (putNull t i) (fun _ s' => s'.Sound U T ∧ s.Beside t {i}ᶜ s' ∧ s'.hand = s.hand ∧
        (s'.tree t).page i = none ∧ (s.tree t).SameNodes (s'.tree t)) .never s := by
  obtain ⟨hb, hf⟩ := h.null ht
  obtain ⟨x, hx, hpage⟩ := page_some.mp hq
  have hmiss : (s.tree t).missing (way i) = ∅ := missing_of_reached hx (reached_of_page hpage)
  have hsound := putNull_sound ht h i
  simp only [Leaves, putNull, onTree, wp_zoom, update_self] at hsound ⊢
  refine wp_imp (wp_and hsound (wp_and (pagetreePutPage_place hb hf i)
    (pagetreePutPage_supply hb hf))) (fun _ r hr => ?_) (fun _ r hr => ?_) fun _ _ hr => hr.2.1
  · exact ⟨hr.1, .of_tree hr.2.1.1, trivial, hr.2.1.2, hr.2.2.2 hmiss⟩
  · rcases hr.2.2 with ⟨hle, -⟩ | ⟨hno, -⟩
    · rw [locate_eq_none.mpr hle] at hx
      cases hx
    · rw [hmiss] at hno
      cases hno

end Forest

end Corey.Mem
