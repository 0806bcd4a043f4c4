import Corey.Kern.Darray
import Corey.Mem.Places

/-!
Arrays that are backed at once (`kern/darray.c`).

An array that is not on demand takes its pages when it grows. If one of them cannot be had, the
pages it has taken for this are dropped again. The blocks of the page tree that were allocated on
the way stay, and the number of pages is rounded up in 64 bits.
-/

namespace Corey.Kern

open Function Corey.Comp Corey.Mem Corey.Mem.Memory Forest
open Corey.Mem.Forest (takePage givePage putPage putNull)

variable {ι : Type} [DecidableEq ι] {U : Finset Ppn} {T : Finset ι} {s s' : Forest ι}
  {w w' : (ι → Darray) × Forest ι} {t : ι} {pt : Pagetree} {m : Memory} {i j k n cur new : ℕ}
  {q x : Ppn} {a : Darray} {clear : Bool}

/-! ### The number of pages -/

lemma npages_eq (h : n + (a.daPp - 1) < word64) : a.npages n = (n + (a.daPp - 1)) / a.daPp := by
  rw [Darray.npages, roundup, rounddown, Nat.mod_eq_of_lt h]
  rcases Nat.eq_zero_or_pos a.daPp with h0 | hpos
  · rw [h0, Nat.div_zero, Nat.div_zero]
  · set b := n + (a.daPp - 1)
    rw [← Nat.div_mul_self_eq_mod_sub_self, Nat.mul_div_cancel _ hpos]

lemma div_lt_npages (h : n + (a.daPp - 1) < word64) (hpos : 0 < a.daPp) (hi : i < n) :
    i / a.daPp < a.npages n := by
  rw [npages_eq h, Nat.lt_iff_add_one_le, Nat.le_div_iff_mul_le hpos, Nat.add_mul, Nat.one_mul]
  have := Nat.div_mul_le_self i a.daPp
  omega

/-! ### A new page -/

lemma putNewPage_place (h : s.Sound U T) (ht : t ∈ T) (hnone : (s.tree t).page i = none) {pid : ℕ}
    (hpid : (s.tree t).pid = pid) :
    wp (putNewPage t pid i) (fun x s' => s.Placed U T t i x s')
      ⟨fun _ s' => s'.Sound U T ∧ s.Beside t Set.univ s' ∧ s'.hand = s.hand ∧
        Refused i (s.tree t) s.mem (s'.tree t), fun _ _ => False⟩ s := by
  subst hpid
  simp only [putNewPage, wp_rules, wp_onErr]
  refine wp_mono (takePage_place h ht _) (fun x s1 h1 => ?_) fun _ s1 h1 => ?_
  · refine wp_mono (putPage_taken ht hnone h1) (fun _ _ => id) fun _ s2 h2 => ?_
    obtain ⟨hsound, hbeside, hhand, hno⟩ := h2
    have hx : x ∈ s2.hand := by
      rw [hhand]
      exact List.mem_cons_self
    refine wp_of_never (givePage_spec hsound hx) fun _ s3 h3 => ?_
    refine ⟨h3.1.sound, hbeside.trans (h3.1.beside ht), ?_, ?_⟩
    · rw [h3.1.hand, hhand, List.erase_cons_head]
    · rwa [h3.1.tree]
  · obtain ⟨hs, hno⟩ := h1
    refine ⟨hs.sound, hs.beside ht, hs.hand, .inr (not_grants_of_le hno (Nat.le_add_right _ _)),
      fun _ q => by rw [hs.tree]⟩

/-! ### Dropping pages -/

/-- The places below `n` are filled, each with a page of its own, and no others. -/
structure Filled (t : ι) (n : ℕ) (s : Forest ι) : Prop where
  backed : ∀ k < n, ∃ q, (s.tree t).page k = some q
  beyond : ∀ k, n ≤ k → (s.tree t).page k = none
  apart : ∀ j k q, (s.tree t).page j = some q → (s.tree t).page k = some q → j = k

omit [DecidableEq ι] in
lemma Filled.of_beside (h : Filled t n s) (hb : s.Beside t Set.univ s') : Filled t n s' := by
  have hpage := fun k => hb.page k trivial
  refine ⟨fun k hk => ?_, fun k hk => ?_, fun j k q hj hk => ?_⟩
  · rw [hpage k]
    exact h.backed k hk
  · rw [hpage k]
    exact h.beyond k hk
  · rw [hpage j] at hj
    rw [hpage k] at hk
    exact h.apart j k q hj hk

structure Emptied (U : Finset Ppn) (T : Finset ι) (t : ι) (i j : ℕ) (s s' : Forest ι) : Prop where
  sound : s'.Sound U T
  beside : s.Beside t (Set.Ico i j)ᶜ s'
  hand : s'.hand = s.hand
  none : ∀ k, i ≤ k → k < j → (s'.tree t).page k = none
  nodes : (s.tree t).SameNodes (s'.tree t)

lemma dropPages_spec (h : w.2.Sound U T) (ht : t ∈ T)
    (hfull : ∀ k, i ≤ k → k < i + n → ∃ q, (w.2.tree t).page k = some q) :
    wp (loop (dropPage t) i n) (fun _ w' => w'.1 = w.1 ∧ Emptied U T t i (i + n) w.2 w'.2)
      .never w := by
  refine wp_loop (fun j w' => w'.1 = w.1 ∧ Emptied U T t i j w.2 w'.2) n i w
    ⟨rfl, h, .refl _, rfl, fun k h1 h2 => by omega, fun _ => rfl⟩ ?_
  rintro j ⟨heads, s1⟩ hj1 hj2 ⟨rfl, h1⟩
  obtain ⟨q, hq⟩ := hfull j hj1 hj2
  have hq1 : (s1.tree t).page j = some q := by
    rw [← hq]
    exact h1.beside.page j fun hmem => Nat.lt_irrefl j hmem.2
  simp only [dropPage, wp_bind, wp_attempt, wp_shared]
  refine wp_of_never (putNull_place h1.sound ht hq1) fun _ s2 h2 => ?_
  obtain ⟨hsound, hbeside, hhand, hnone, hnodes⟩ := h2
  refine ⟨rfl, hsound, h1.beside.next hj1 hbeside, hhand.trans h1.hand, fun k hk1 hk2 => ?_,
    fun x => (hnodes x).trans (h1.nodes x)⟩
  by_cases hkj : k = j
  · rw [hkj]
    exact hnone
  · exact (hbeside.page k hkj).trans (h1.none k hk1 (by omega))

/-! ### Growing -/

/-- The places from `cur` on below `i` have been filled. -/
structure Grown (U : Finset Ppn) (T : Finset ι) (t : ι) (cur : ℕ) (s : Forest ι) (i : ℕ)
    (s' : Forest ι) : Prop where
  sound : s'.Sound U T
  beside : s.Beside t (Set.Ico cur i)ᶜ s'
  hand : s'.hand = s.hand
  filled : Filled t i s'
  grants : s.mem.grants (s.tree t).pid (i - cur + ((s.tree t).missing (ways cur i)).card) = true
  spends : Spends (i - cur + ((s.tree t).missing (ways cur i)).card) s.mem s'.mem
  gains : (s.tree t).Gains (ways cur i) (s'.tree t)
  nodes : (s.tree t).missing (ways cur i) = ∅ → (s.tree t).SameNodes (s'.tree t)

section

omit [DecidableEq ι]

lemma Grown.refl (h : s.Sound U T) (hf : Filled t cur s) : Grown U T t cur s cur s where
  sound := h
  beside := .refl s
  hand := rfl
  filled := hf
  grants := by
    rw [ways_self, Nat.sub_self]
    rfl
  spends := by
    rw [ways_self, Nat.sub_self]
    exact (Memory.Alike.refl _).spends h.balanced.wired
  gains b := by simp
  nodes _ _ := rfl

lemma Grown.card_succ (h : Grown U T t cur s i s') (hi : cur ≤ i) :
    ((s.tree t).missing (ways cur (i + 1))).card =
      ((s.tree t).missing (ways cur i)).card + ((s'.tree t).missing (way i)).card := by
  rw [ways_succ hi, h.gains.card_missing]

lemma Grown.missing_empty (h : Grown U T t cur s i s') (hi : cur ≤ i)
    (h0 : (s.tree t).missing (ways cur (i + 1)) = ∅) :
    (s.tree t).missing (ways cur i) = ∅ ∧ (s'.tree t).missing (way i) = ∅ := by
  have hcard := h.card_succ hi
  rw [h0, Finset.card_empty] at hcard
  constructor
  · exact Finset.card_eq_zero.mp (by omega)
  · exact Finset.card_eq_zero.mp (by omega)

lemma Grown.pid (h : Grown U T t cur s i s') : (s'.tree t).pid = (s.tree t).pid := h.beside.pid

lemma Grown.put {s2 : Forest ι} (h : Grown U T t cur s i s') (hi : cur ≤ i)
    (hp : s'.Placed U T t i x s2) : Grown U T t cur s (i + 1) s2 := by
  have hcount : i + 1 - cur + ((s.tree t).missing (ways cur (i + 1))).card =
      i - cur + ((s.tree t).missing (ways cur i)).card +
        (1 + ((s'.tree t).missing (way i)).card) := by
    rw [h.card_succ hi]
    omega
  refine ⟨hp.sound, h.beside.next hi hp.beside, hp.hand.trans h.hand,
    ⟨fun k hk => ?_, fun k hk => ?_, ?_⟩, ?_, ?_, ?_, ?_⟩
  · by_cases hki : k = i
    · exact ⟨x, hki ▸ hp.page⟩
    · rw [hp.beside.page k hki]
      exact h.filled.backed k (by omega)
  · rw [hp.beside.page k (show k ≠ i by omega)]
    exact h.filled.beyond k (by omega)
  · -- the new page is at no old place
    have hold : ∀ j q, j ≠ i → (s2.tree t).page j = some q → q ≠ x := by
      rintro j q hj hq rfl
      rw [hp.beside.page j hj] at hq
      exact hp.fresh j hq
    intro j k q hj hk
    by_cases hji : j = i
    · subst hji
      by_cases hkj : k = j
      · exact hkj.symm
      · exact absurd (Option.some.inj (hj.symm.trans hp.page)) (hold k q hkj hk)
    · by_cases hki : k = i
      · subst hki
        exact absurd (Option.some.inj (hk.symm.trans hp.page)) (hold j q hji hj)
      · rw [hp.beside.page j hji] at hj
        rw [hp.beside.page k hki] at hk
        exact h.filled.apart j k q hj hk
  · rw [hcount, ← h.spends.grants, ← h.pid]
    exact hp.grants
  · rw [hcount]
    exact h.spends.trans hp.spends
  · rw [ways_succ hi]
    exact h.gains.trans hp.gains
  · intro h0 q
    obtain ⟨h1, h2⟩ := h.missing_empty hi h0
    exact (hp.nodes h2 q).trans (h.nodes h1 q)

lemma Grown.write (h : Grown U T t cur s (i + 1) s') (hi : cur ≤ i)
    (hx : (s'.tree t).page i = some x) (hsound : Forest.Sound U T { s' with mem := m })
    (hpins : ∀ q, (m.info q).piHwRef = (s'.mem.info q).piHwRef)
    (htext : ∀ q ≠ x, m.text q = s'.mem.text q) (halike : s'.mem.Alike m) :
    Grown U T t cur s (i + 1) { s' with mem := m } where
  sound := hsound
  beside := by
    refine ⟨h.beside.trees, h.beside.pid, fun q => (hpins q).trans (h.beside.pins q), h.beside.page,
      fun k hk q hq => Eq.trans (htext q ?_) (h.beside.text k hk q hq)⟩
    rintro rfl
    have hki := h.filled.apart k i q ((h.beside.page k hk).trans hq) hx
    subst hki
    exact hk ⟨hi, Nat.lt_succ_self k⟩
  hand := h.hand
  filled := ⟨h.filled.backed, h.filled.beyond, h.filled.apart⟩
  grants := h.grants
  spends := h.spends.alike halike
  gains := h.gains
  nodes := h.nodes

end

lemma clearPage_grown (h : Grown U T t cur s (i + 1) w.2) (ht : t ∈ T) (hi : cur ≤ i)
    (hx : (w.2.tree t).page i = some x) :
    wp (clearPage clear x) (fun _ w' => w'.1 = w.1 ∧ Grown U T t cur s (i + 1) w'.2) .never w := by
  simp only [clearPage, wp_rules, wp_shared, onMem, wp_zoom, pageZero, setClear]
  refine ⟨fun _ => ⟨trivial, ?_⟩, fun _ => ⟨trivial, h⟩⟩
  obtain ⟨y, hy, hxy⟩ := Pagetree.page_some.mp hx
  have hsheet : (w.2.sheet (T : Set ι)).page (t, y) = some x :=
    sheet_page_some.mpr ⟨⟨ht, locate_valid hy⟩, hxy⟩
  exact h.write hi hx (h.sound.fill (subset_refl _) hsheet zeroPage) (fill_hw zeroPage)
    (fun q hq => fill_text_of_ne zeroPage hq) ⟨rfl, rfl, rfl, rfl, rfl, rfl⟩

/-- Growing from `cur` to `new` pages ends with the blocks the tree has if it fails: no block is
missing, or all pages are there for it, or there is none left when the first block is needed. -/
def Room (pt : Pagetree) (m : Memory) (cur new : ℕ) : Prop :=
  pt.missing (ways cur new) = ∅ ∨
  new ≤ treePages ∧ m.grants pt.pid (new - cur + (pt.missing (ways cur new)).card) = true ∨
  ∃ i, cur ≤ i ∧ i < new ∧ pt.missing (ways cur i) = ∅ ∧ m.grants pt.pid (i - cur + 2) = false

omit [DecidableEq ι] in
lemma Grown.refused (h : Grown U T t cur s i s') (hi : cur ≤ i) (hnew : i < new)
    (hroom : Room (s.tree t) s.mem cur new) (hno : Refused i (s'.tree t) s'.mem pt) :
    (s.tree t).SameNodes pt := by
  obtain ⟨hwhy, hsame⟩ := hno
  rw [h.pid, h.spends.grants] at hwhy hsame
  have hcard := h.card_succ hi
  -- enough for the tree to be as it was
  have hend : (s.tree t).missing (ways cur i) = ∅ →
      ((s'.tree t).missing (way i) = ∅ ∨ s.mem.grants (s.tree t).pid
        (i - cur + ((s.tree t).missing (ways cur i)).card + 2) = false) →
      (s.tree t).SameNodes pt := fun h0 h1 q => (hsame h1 q).trans (h.nodes h0 q)
  rcases hroom with hmiss | ⟨hle, hgrants⟩ | ⟨j, hj, hjnew, hmiss, hdeny⟩
  · obtain ⟨h1, h2⟩ := h.missing_empty hi (Pagetree.missing_eq_empty_mono (ways_mono hnew) hmiss)
    exact hend h1 (.inl h2)
  · -- the pages would have been enough
    have hmono : ((s.tree t).missing (ways cur (i + 1))).card ≤
        ((s.tree t).missing (ways cur new)).card :=
      Finset.card_le_card (Pagetree.missing_mono (ways_mono hnew))
    rcases hwhy with hge | hfail
    · omega
    · rw [grants_of_le hgrants (by omega)] at hfail
      cases hfail
  · rcases Nat.lt_trichotomy i j with hij | rfl | hji
    · obtain ⟨h1, h2⟩ := h.missing_empty hi (Pagetree.missing_eq_empty_mono (ways_mono hij) hmiss)
      exact hend h1 (.inl h2)
    · refine hend hmiss (.inr ?_)
      rwa [hmiss, Finset.card_empty, Nat.add_zero]
    · -- page `i` is the first that is refused, so there was no block after page `j`
      have hlt : i - cur + ((s.tree t).missing (ways cur i)).card < j - cur + 2 := by
        by_contra hge
        have hgrants := h.grants
        rw [not_grants_of_le hdeny (Nat.not_lt.mp hge)] at hgrants
        cases hgrants
      have h0 : ((s.tree t).missing (ways cur i)).card = 0 := by omega
      exact hend (Finset.card_eq_zero.mp h0) (.inr (not_grants_of_le hdeny (by omega)))

/-- What an attempt to grow to `new` pages leaves when it has failed. -/
structure Undone (U : Finset Ppn) (T : Finset ι) (t : ι) (cur new : ℕ) (s s' : Forest ι) :
    Prop where
  sound : s'.Sound U T
  beside : s.Beside t Set.univ s'
  hand : s'.hand = s.hand
  nodes : Room (s.tree t) s.mem cur new → (s.tree t).SameNodes (s'.tree t)

lemma growPage_spec (h : Grown U T t cur s i w.2) (ht : t ∈ T) (hf : Filled t cur s)
    (hi : cur ≤ i) (hnew : i < new) :
    wp (growPage t (s.tree t).pid cur clear i)
      (fun _ w' => w'.1 = w.1 ∧ Grown U T t cur s (i + 1) w'.2)
      ⟨fun _ w' => w'.1 = w.1 ∧ Undone U T t cur new s w'.2, fun _ _ => False⟩ w := by
  simp only [growPage, wp_bind, wp_onErr, wp_shared]
  refine wp_mono (putNewPage_place h.sound ht (h.filled.beyond i (Nat.le_refl i)) h.pid)
    (fun x s1 h1 => ?_) fun _ s1 h1 => ?_
  · exact wp_of_never (clearPage_grown (w := (w.1, s1)) (h.put hi h1) ht hi h1.page)
      fun _ _ hw => hw
  · obtain ⟨hsound, hbeside, hhand, hno⟩ := h1
    have hfull : ∀ k, cur ≤ k → k < cur + (i - cur) → ∃ q, (s1.tree t).page k = some q :=
      fun k hk1 hk2 => by
        rw [hbeside.page k trivial]
        exact h.filled.backed k (by omega)
    refine wp_of_never (dropPages_spec (w := (w.1, s1)) hsound ht hfull) fun _ w2 h2 => ?_
    obtain ⟨hheads, h2⟩ := h2
    rw [Nat.add_sub_cancel' hi] at h2
    have hall : s.Beside t (Set.Ico cur i)ᶜ w2.2 :=
      (h.beside.trans (hbeside.mono (Set.subset_univ _))).trans h2.beside
    refine ⟨hheads, h2.sound, hall.all fun k hk => ?_, h2.hand.trans (hhand.trans h.hand),
      fun hroom q => (h2.nodes q).trans (h.refused hi hnew hroom hno q)⟩
    rw [Set.notMem_compl_iff] at hk
    exact ⟨hf.beyond k hk.1, h2.none k hk.1 hk.2⟩

lemma growPages_spec (h : w.2.Sound U T) (ht : t ∈ T) (hf : Filled t cur w.2)
    (hdem : (w.1 t).daDemand = false) (hpid : (w.2.tree t).pid = (w.1 t).daPid)
    (hle : cur ≤ new) :
    wp (growPages t cur new clear) (fun _ w' => w'.1 = w.1 ∧ Grown U T t cur w.2 new w'.2)
      ⟨fun _ w' => w'.1 = w.1 ∧ Undone U T t cur new w.2 w'.2, fun _ _ => False⟩ w := by
  simp only [growPages, head, wp_rules]
  refine ⟨fun _ => ?_, fun hno => absurd hdem hno⟩
  refine wp_post (wp_loop (fun i w' => w'.1 = w.1 ∧ Grown U T t cur w.2 i w'.2) (new - cur) cur w
    ⟨rfl, .refl h hf⟩ fun i w1 hi1 hi2 h1 => ?_) fun _ w1 h1 => ?_
  · rw [← hpid, ← h1.1]
    exact growPage_spec h1.2 ht hf hi1 (by omega)
  · rwa [Nat.add_sub_cancel' hle] at h1

/-! ### Resizing -/

/-- An array whose entries are all backed, in a memory whose pages are accounted for. -/
structure Full (U : Finset Ppn) (T : Finset ι) (t : ι) (w : (ι → Darray) × Forest ι) : Prop where
  sound : w.2.Sound U T
  mem : t ∈ T
  esz : 0 < (w.1 t).daEsz ∧ (w.1 t).daEsz ≤ pgsize
  pp : (w.1 t).daPp = pgsize / (w.1 t).daEsz
  demand : (w.1 t).daDemand = false
  pid : (w.2.tree t).pid = (w.1 t).daPid
  fits : (w.1 t).daNent + ((w.1 t).daPp - 1) < word64
  filled : Filled t ((w.1 t).npages (w.1 t).daNent) w.2

lemma darraySetNent_full (h : Full U T t w) (hn : n + ((w.1 t).daPp - 1) < word64) :
    wp (darraySetNent t n clear)
      (fun _ w' => Full U T t w' ∧ w'.1 = update w.1 t { w.1 t with daNent := n } ∧
        w.2.Beside t {k | k < (w.1 t).npages (w.1 t).daNent ∧ k < (w.1 t).npages n} w'.2)
      ⟨fun _ w' => w'.1 = w.1 ∧ Undone U T t ((w.1 t).npages (w.1 t).daNent)
        ((w.1 t).npages n) w.2 w'.2, fun _ _ => False⟩ w := by
  have hdone : ∀ s' : Forest ι, s'.Sound U T → (s'.tree t).pid = (w.2.tree t).pid →
      Filled t ((w.1 t).npages n) s' →
      Full U T t (update w.1 t { w.1 t with daNent := n }, s') := fun s' hs hpid hf => by
    refine ⟨hs, h.mem, ?_, ?_, ?_, ?_, ?_, ?_⟩ <;> simp only [update_self]
    exacts [h.esz, h.pp, h.demand, hpid.trans h.pid, hn, hf]
  simp only [darraySetNent, head, wp_rules]
  rcases Nat.le_total ((w.1 t).npages (w.1 t).daNent) ((w.1 t).npages n) with hle | hle
  · -- nothing to drop
    rw [Nat.sub_eq_zero_of_le hle, loop, wp_pure]
    refine wp_mono (growPages_spec h.sound h.mem h.filled h.demand h.pid hle)
      (fun _ w1 h1 => ?_) fun _ _ => id
    obtain ⟨hheads, h1⟩ := h1
    rw [setHead, wp_change, hheads]
    refine ⟨hdone _ h1.sound h1.pid h1.filled, rfl, h1.beside.mono fun k hk hmem => ?_⟩
    exact Nat.not_lt.mpr hmem.1 hk.1
  · -- nothing to fill
    refine wp_of_never (dropPages_spec h.sound h.mem fun k _ hk => h.filled.backed k (by omega))
      fun _ w1 h1 => ?_
    obtain ⟨hheads, h1⟩ := h1
    rw [Nat.add_sub_cancel' hle] at h1
    have hzero : (w.1 t).npages n - (w.1 t).npages (w.1 t).daNent = 0 := Nat.sub_eq_zero_of_le hle
    have hcase : ∀ k q, (w1.2.tree t).page k = some q →
        k < (w.1 t).npages n ∧ (w.2.tree t).page k = some q := by
      intro k q hq
      have hout : k ∉ Set.Ico ((w.1 t).npages n) ((w.1 t).npages (w.1 t).daNent) := fun hmem => by
        rw [h1.none k hmem.1 hmem.2] at hq
        cases hq
      have hold : (w.2.tree t).page k = some q := (h1.beside.page k hout).symm.trans hq
      refine ⟨?_, hold⟩
      by_contra hk
      rw [Set.mem_Ico] at hout
      rw [h.filled.beyond k (by omega)] at hold
      cases hold
    have hfilled : Filled t ((w.1 t).npages n) w1.2 := by
      refine ⟨fun k hk => ?_, fun k hk => ?_, fun j k q hj hk => ?_⟩
      · rw [h1.beside.page k fun hmem => Nat.not_lt.mpr hmem.1 hk]
        exact h.filled.backed k (by omega)
      · cases hpage : (w1.2.tree t).page k with
        | none => rfl
        | some q => exact absurd (hcase k q hpage).1 (Nat.not_lt.mpr hk)
      · exact h.filled.apart j k q (hcase j q hj).2 (hcase k q hk).2
    simp only [growPages, head, wp_rules, hzero, loop, setHead, hheads]
    have hend := hdone _ h1.sound h1.beside.pid hfilled
    refine ⟨fun _ => ⟨hend, trivial, ?_⟩, fun _ => ⟨hend, trivial, ?_⟩⟩ <;>
    exact h1.beside.mono fun k hk hmem => Nat.not_lt.mpr hmem.1 hk.2

/-! ### The entries -/

/-- Where an entry is: its page, its place in the page, and what the page holds. -/
def entry (t : ι) (i : ℕ) (w : (ι → Darray) × Forest ι) : Option (Ppn × ℕ × Page) :=
  ((w.2.tree t).page (i / (w.1 t).daPp)).map fun q =>
    (q, i % (w.1 t).daPp * (w.1 t).daEsz, w.2.mem.bytes q)

/-- All entries of an array are inside pages, and no two of them overlap. -/
structure LaidOut (t : ι) (w : (ι → Darray) × Forest ι) : Prop where
  inside : ∀ i < (w.1 t).daNent, ∃ q o b, entry t i w = some (q, o, b) ∧
    o + (w.1 t).daEsz ≤ pgsize
  apart : ∀ i j q o b q' o' b', i ≠ j → entry t i w = some (q, o, b) →
    entry t j w = some (q', o', b') →
    q ≠ q' ∨ o + (w.1 t).daEsz ≤ o' ∨ o' + (w.1 t).daEsz ≤ o

section

omit [DecidableEq ι]

lemma entry_some {o : ℕ} {b : Page} : entry t i w = some (q, o, b) ↔
    (w.2.tree t).page (i / (w.1 t).daPp) = some q ∧ o = i % (w.1 t).daPp * (w.1 t).daEsz ∧
      b = w.2.mem.bytes q := by
  rw [entry, Option.map_eq_some_iff]
  constructor
  · rintro ⟨q, hq, heq⟩
    cases heq
    exact ⟨hq, rfl, rfl⟩
  · rintro ⟨hq, rfl, rfl⟩
    exact ⟨q, hq, rfl⟩

lemma Full.pp_pos (h : Full U T t w) : 0 < (w.1 t).daPp := by
  rw [h.pp]
  exact Nat.div_pos h.esz.2 h.esz.1

lemma Full.laidOut (h : Full U T t w) : LaidOut t w := by
  have hroom : (w.1 t).daPp * (w.1 t).daEsz ≤ pgsize := by
    rw [h.pp]
    exact Nat.div_mul_le_self _ _
  -- the places of two entries of one page
  have hnext : ∀ i j, i < j → j ≤ (w.1 t).daPp →
      i * (w.1 t).daEsz + (w.1 t).daEsz ≤ j * (w.1 t).daEsz := fun i j hij _ => by
    rw [← Nat.succ_mul]
    exact Nat.mul_le_mul_right _ hij
  have hmod : ∀ i, i % (w.1 t).daPp < (w.1 t).daPp := fun i => Nat.mod_lt i h.pp_pos
  constructor
  · intro i hi
    obtain ⟨q, hq⟩ := h.filled.backed _ (div_lt_npages h.fits h.pp_pos hi)
    refine ⟨q, _, _, entry_some.mpr ⟨hq, rfl, rfl⟩, ?_⟩
    exact Nat.le_trans (hnext _ _ (hmod i) (Nat.le_refl _)) hroom
  · intro i j q o b q' o' b' hij hi hj
    obtain ⟨hq, rfl, -⟩ := entry_some.mp hi
    obtain ⟨hq', rfl, -⟩ := entry_some.mp hj
    by_cases hqq : q = q'
    · subst hqq
      have hdiv := h.filled.apart _ _ q hq hq'
      have hne : i % (w.1 t).daPp ≠ j % (w.1 t).daPp := fun heq => hij <| by
        rw [← Nat.div_add_mod i (w.1 t).daPp, ← Nat.div_add_mod j (w.1 t).daPp, hdiv, heq]
      rcases Nat.lt_or_gt_of_ne hne with hlt | hlt
      · exact .inr (.inl (hnext _ _ hlt (hmod j).le))
      · exact .inr (.inr (hnext _ _ hlt (hmod i).le))
    · exact .inl hqq

lemma entry_of_beside {K : Set ℕ} (h : w.2.Beside t K w'.2) (hpp : (w'.1 t).daPp = (w.1 t).daPp)
    (hesz : (w'.1 t).daEsz = (w.1 t).daEsz) (hi : i / (w.1 t).daPp ∈ K) :
    entry t i w' = entry t i w := by
  rw [entry, entry, hpp, hesz, h.page _ hi]
  cases hq : (w.2.tree t).page (i / (w.1 t).daPp) with
  | none => rfl
  | some q =>
    have htext : w'.2.mem.bytes q = w.2.mem.bytes q := congrArg Prod.snd (h.text _ hi q hq)
    simp only [Option.map_some, htext]

end

/-! ### Every run -/

inductive Resize
  | set (n : ℕ) (clear : Bool)
  | grow (n : ℕ)

def Resize.body (t : ι) : Resize → DaM ι Unit
  | .set n clear => darraySetNent t n clear
  | .grow n => darrayGrowNent t n

def Resize.size : Resize → ℕ → ℕ
  | .set n _, _ => n
  | .grow n, nent => max nent n

/-- An array may be resized to `n` entries: the number of pages this takes can be computed, and
there is room for them. -/
def Resizable (t : ι) (w : (ι → Darray) × Forest ι) (n : ℕ) : Prop :=
  n + ((w.1 t).daPp - 1) < word64 ∧
    Room (w.2.tree t) w.2.mem ((w.1 t).npages (w.1 t).daNent) ((w.1 t).npages n)

def Resize.Fits (t : ι) (w : (ι → Darray) × Forest ι) : Resize → Prop
  | .set n _ => Resizable t w n
  | .grow n => (w.1 t).daNent < n → Resizable t w n

/-- Between resizings the entries are written to. -/
inductive ArrayOp
  | resize (r : Resize)
  | write (i : ℕ) (b : Page)

def writePage (t : ι) (i : ℕ) (b : Page) : DaM ι Unit := do
  let w ← state
  match (w.2.tree t).page (i / (w.1 t).daPp) with
  | some q => shared (Forest.onMem (change fun m => m.setBytes q b))
  | none => pure ()

def ArrayOp.body (t : ι) : ArrayOp → DaM ι Unit
  | .resize r => r.body t
  | .write i b => writePage t i b

def ArrayOp.Fits (t : ι) (w : (ι → Darray) × Forest ι) : ArrayOp → Prop
  | .resize r => r.Fits t w
  | .write _ _ => True

/-- An array that has been initialised not to be on demand, among other users of the memory. -/
def kernelArray (U : Finset Ppn) (T : Finset ι) (t : ι) :
    System ((ι → Darray) × Forest ι) ArrayOp where
  init w := ∃ w0 esz pid, 0 < esz ∧ esz ≤ pgsize ∧ t ∈ T ∧ w0.2.Sound U T ∧
    (w0.2.tree t).ledger = 0 ∧ (darrayInit t esz false pid).next w0 = some w
  step op w := (op.body t).next w

lemma Full.init (h : (kernelArray U T t).init w) : Full U T t w := by
  obtain ⟨w0, esz, pid, hpos, hle, ht, hsound, hempty, hw⟩ := h
  obtain rfl : (update w0.1 t { daPid := pid, daPp := pgsize / esz, daEsz := esz },
      w0.2.withTree t (pagetreeInit false pid) w0.2.mem) = w := Option.some.inj hw
  have hledger : (pagetreeInit false pid).ledger = 0 :=
    Pagetree.Empty.ledger ⟨fun _ _ => rfl, fun _ _ => rfl⟩
  have hsame : (w0.2.withTree t (pagetreeInit false pid) w0.2.mem).ledger T = w0.2.ledger T := by
    refine (ledger_update ht _ _).trans ?_
    rw [hledger, ← hempty, ← ledger_split ht]
  have hpp : 0 + (pgsize / esz - 1) < word64 := by
    have := Nat.div_le_self pgsize esz
    simp only [pgsize, word64] at this ⊢
    omega
  have hone : 0 < pgsize / esz := Nat.div_pos hle hpos
  refine ⟨⟨hsame ▸ hsound.balanced, hsame ▸ hsound.fits⟩, ht, ?_, ?_, ?_, ?_, ?_, ?_⟩ <;>
    simp only [update_self, withTree_tree_self]
  · exact ⟨hpos, hle⟩
  · rfl
  · exact hpp
  · rw [npages_eq hpp, Nat.div_eq_of_lt (by simp only; omega)]
    refine ⟨fun k hk => absurd hk (Nat.not_lt_zero k), fun k _ => ?_, fun j k q hj _ => ?_⟩
    · rw [withTree_tree_self, Pagetree.page_init]
    · rw [withTree_tree_self, Pagetree.page_init] at hj
      cases hj

lemma Full.resize (h : Full U T t w) (r : Resize) (hr : r.Fits t w) :
    wp (r.body t) (fun _ w' => Full U T t w' ∧ (w'.1 t).daNent = r.size (w.1 t).daNent ∧
        ∀ i, i < (w.1 t).daNent → i < (w'.1 t).daNent → entry t i w' = entry t i w)
      ⟨fun _ w' => Full U T t w' ∧ (w'.1 t).daNent = (w.1 t).daNent ∧
        (∀ i < (w.1 t).daNent, entry t i w' = entry t i w) ∧
        ∀ q, w'.2.mem.freeCount q = w.2.mem.freeCount q, fun _ _ => False⟩ w := by
  have hset : ∀ n clear, Resizable t w n → wp (darraySetNent t n clear)
      (fun _ w' => Full U T t w' ∧ (w'.1 t).daNent = n ∧
        ∀ i, i < (w.1 t).daNent → i < (w'.1 t).daNent → entry t i w' = entry t i w)
      ⟨fun _ w' => Full U T t w' ∧ (w'.1 t).daNent = (w.1 t).daNent ∧
        (∀ i < (w.1 t).daNent, entry t i w' = entry t i w) ∧
        ∀ q, w'.2.mem.freeCount q = w.2.mem.freeCount q, fun _ _ => False⟩ w := by
    rintro n clear ⟨hn, hroom⟩
    refine wp_mono (darraySetNent_full h hn) (fun _ w1 h1 => ?_) fun _ w1 h1 => ?_
    · obtain ⟨hfull, hheads, hbeside⟩ := h1
      have hhead : w1.1 t = { w.1 t with daNent := n } := by rw [hheads, update_self]
      rw [hhead]
      refine ⟨hfull, rfl, fun i hi hin => entry_of_beside hbeside ?_ ?_ ⟨?_, ?_⟩⟩
      · rw [hhead]
      · rw [hhead]
      · exact div_lt_npages h.fits h.pp_pos hi
      · exact div_lt_npages hn h.pp_pos hin
    · obtain ⟨heads, s1⟩ := w1
      obtain ⟨rfl, hundone⟩ := h1
      refine ⟨⟨hundone.sound, h.mem, h.esz, h.pp, h.demand, hundone.beside.pid.trans h.pid, h.fits,
        h.filled.of_beside hundone.beside⟩, rfl, fun i _ => ?_, ?_⟩
      · exact entry_of_beside hundone.beside rfl rfl trivial
      · exact h.sound.free_of_beside hundone.sound h.mem hundone.beside hundone.hand
          (hundone.nodes hroom)
  cases r with
  | set n clear => exact hset n clear hr
  | grow n =>
    simp only [Resize.body, darrayGrowNent, head, wp_rules, Resize.size]
    refine ⟨fun hlt => ?_, fun hge => ⟨h, by omega, fun _ _ _ => trivial⟩⟩
    rw [Nat.max_eq_right hlt.le]
    exact hset n true (hr hlt)

omit [DecidableEq ι] in
lemma writePage_full (h : Full U T t w) (i : ℕ) (b : Page) :
    wp (writePage t i b) (fun _ w' => Full U T t w') .never w := by
  simp only [writePage, wp_rules]
  cases (w.2.tree t).page (i / (w.1 t).daPp) with
  | none => exact h
  | some q =>
    exact ⟨⟨h.sound.balanced.setBytes q b, h.sound.fits⟩, h.mem, h.esz, h.pp, h.demand, h.pid,
      h.fits, ⟨h.filled.backed, h.filled.beyond, h.filled.apart⟩⟩

lemma Full.reach (h : (kernelArray U T t).Reach (ArrayOp.Fits t) w) : Full U T t w := by
  refine h.invariant (fun _ => Full.init) fun w op w' hw hop hstep => ?_
  refine next_of_wp ?_ hstep
  cases op with
  | resize r =>
    exact wp_mono (hw.resize r hop) (fun _ _ h1 => h1.1) fun _ _ h1 => h1.1
  | write i b => exact wp_of_never (writePage_full hw i b) fun _ _ => id

/-- **A kernel array is fully backed.** In every run of one array, between whose resizings its
pages are written to and all of whose resizings fit, and in which allocations fail as they like: a
resizing that succeeds leaves an array of that size with all entries inside pages, none of which
overlap, and with the entries it had as they were. One that fails leaves the size, all entries and
the set of free pages as they were. -/
theorem kernel_array_backed_or_unchanged
    (h : (kernelArray U T t).Reach (ArrayOp.Fits t) w) (r : Resize) (hr : r.Fits t w) :
    wp (r.body t) (fun _ w' => (w'.1 t).daNent = r.size (w.1 t).daNent ∧ LaidOut t w' ∧
        ∀ i, i < (w.1 t).daNent → i < (w'.1 t).daNent → entry t i w' = entry t i w)
      ⟨fun _ w' => (w'.1 t).daNent = (w.1 t).daNent ∧
        (∀ i < (w.1 t).daNent, entry t i w' = entry t i w) ∧
        ∀ q, w'.2.mem.freeCount q = w.2.mem.freeCount q, fun _ _ => False⟩ w :=
  wp_mono ((Full.reach h).resize r hr) (fun _ _ h1 => ⟨h1.2.1, h1.1.laidOut, h1.2.2⟩)
    fun _ _ h1 => h1.2

/-- A machine of `k` pages before its one array is initialised. -/
def bareArray (k : ℕ) : (ℕ → Darray) × Forest ℕ :=
  (fun _ => {}, { tree := fun _ => pagetreeInit false 0, hand := [], mem := bootMemory k })

def freshArray (k esz : ℕ) : (ℕ → Darray) × Forest ℕ :=
  ((darrayInit 0 esz false 0).next (bareArray k)).getD (bareArray k)

lemma freshArray_init (k esz : ℕ) (hpos : 0 < esz) (hle : esz ≤ pgsize) :
    (kernelArray (Finset.range k) {0} 0).init (freshArray k esz) :=
  ⟨bareArray k, esz, 0, hpos, hle, Finset.mem_singleton_self 0,
    Forest.Sound.init ⟨bootMemory_boot k, rfl, fun _ _ => ⟨false, 0, rfl⟩⟩,
    Pagetree.Empty.ledger ⟨fun _ _ => rfl, fun _ _ => rfl⟩, rfl⟩

def threeHalves : (ℕ → Darray) × Forest ℕ :=
  (((Resize.set 3 false).body 0).next (freshArray 3 2048)).getD (bareArray 3)

theorem kernel_array_backed_or_unchanged_halves :
    (kernelArray (Finset.range 3) {0} 0).Reach (ArrayOp.Fits 0) threeHalves ∧
      (Resize.grow 7).Fits 0 threeHalves ∧
      ∃ w, ((Resize.grow 7).body 0).failed threeHalves = some w ∧ (w.1 0).daNent = 3 ∧
        (∀ i < 3, entry 0 i w = entry 0 i threeHalves) ∧
        ∀ q, w.2.mem.freeCount q = threeHalves.2.mem.freeCount q := by
  have hreach : (kernelArray (Finset.range 3) {0} 0).Reach (ArrayOp.Fits 0) threeHalves :=
    (System.Reach.start (freshArray_init 3 2048 (by decide) (by decide))).next
      (a := .resize (.set 3 false)) ⟨by decide, .inl (by decide +kernel)⟩ rfl
  have hfits : (Resize.grow 7).Fits 0 threeHalves := fun _ =>
    ⟨by decide, .inr (.inr ⟨3, by decide, by decide, by decide +kernel, by decide +kernel⟩)⟩
  have hfails : (((Resize.grow 7).body 0).failed threeHalves).isSome := by decide +kernel
  obtain ⟨w, hw⟩ := Option.isSome_iff_exists.mp hfails
  obtain ⟨e, he⟩ := failed_eq_some.mp hw
  exact ⟨hreach, hfits, w, hw, wp_err (kernel_array_backed_or_unchanged hreach _ hfits) he⟩

/-- **An array may be left without pages, and pages may be lost.** With 73 entries to a page, a
size of `2 ^ 64 - 1` is rounded up to 0 and accepted. On a machine of five pages, an array that is
to get five pages of its own gets four and a block, and keeps the block when it fails. -/
theorem kernel_array_not_backed :
    (∃ w, (kernelArray (Finset.range 0) {0} 0).Reachable w ∧
      ∃ w', ((Resize.set (2 ^ 64 - 1) false).body 0).result w = some ((), w') ∧
        (w'.1 0).daNent = 2 ^ 64 - 1 ∧ entry 0 0 w' = none) ∧
    ∃ w, (kernelArray (Finset.range 5) {0} 0).Reachable w ∧
      ∃ w', ((Resize.set 5 false).body 0).failed w = some w' ∧
        w.2.mem.freeCount 4 = 1 ∧ w'.2.mem.freeCount 4 = 0 := by
  constructor
  · exact ⟨freshArray 0 56, .start (freshArray_init 0 56 (by decide) (by decide)), _, rfl, rfl, rfl⟩
  · exact ⟨freshArray 5 pgsize, .start (freshArray_init 5 pgsize (by decide) (by decide)), _, rfl,
      rfl, rfl⟩

end Corey.Kern
