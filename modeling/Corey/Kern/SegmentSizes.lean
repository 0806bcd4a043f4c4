import Corey.Kern.FullArrays
import Corey.Kern.SegmentRuns
import Corey.Mem.Returns

/-!
Resizing one segment again and again (`segment_set_nbytes`).

A segment grows without taking pages, whatever its size. When it shrinks, every place it drops is
walked to, whether a page was ever put there or not. The walk may fail, and then the kernel stops.
-/

namespace Corey.Kern

open Function Corey.Comp Corey.Mem Corey.Mem.Memory Finset Forest
open Corey.Mem.Forest (Sole putNull)

section Dropping

variable {ι : Type} [DecidableEq ι] {U : Finset Ppn} {T : Finset ι} {s s' s'' : Forest ι}
  {w : (ι → Darray) × Forest ι} {t : ι} {i j k n : ℕ} {q : Ppn}

/-- The number of places from `i` on below `j` that have a page. -/
def pagesIn (pt : Pagetree) (i j : ℕ) : ℕ :=
  ((Finset.Ico i j).filter fun k => (pt.page k).isSome).card

lemma pagesIn_self (pt : Pagetree) (i : ℕ) : pagesIn pt i i = 0 := by
  rw [pagesIn, Finset.Ico_self]
  rfl

lemma pagesIn_succ (pt : Pagetree) (h : i ≤ j) :
    pagesIn pt i (j + 1) = pagesIn pt i j + if (pt.page j).isSome then 1 else 0 := by
  have hlast : Finset.Ico i (j + 1) = insert j (Finset.Ico i j) := by
    ext k
    simp only [mem_Ico, mem_insert]
    omega
  rw [pagesIn, hlast, filter_insert]
  split_ifs with hj
  · rw [card_insert_of_notMem (by simp), pagesIn]
  · rfl

/-- The places from `i` on below `j` can be dropped: the tree has all of them, no call is denied
for the blocks that are missing on the way to them, and at each of them there has been a free page
for each block so far, counting those that were given back before. -/
def Droppable (pt : Pagetree) (m : Memory) (i j : ℕ) : Prop :=
  j ≤ treePages ∧ (∀ c < (pt.missing (ways i j)).card, m.deny (m.calls + c) = false) ∧
    ∀ k, i ≤ k → k < j → (pt.missing (ways i (k + 1))).card ≤ m.freePages + pagesIn pt i k

structure Dropped (U : Finset Ppn) (T : Finset ι) (t : ι) (i : ℕ) (s : Forest ι) (j : ℕ)
    (s' : Forest ι) : Prop where
  sound : s'.Sound U T
  beside : s.Beside t (Set.Ico i j)ᶜ s'
  none : ∀ k, i ≤ k → k < j → (s'.tree t).page k = none
  gains : (s.tree t).Gains (ways i j) (s'.tree t)
  trades : Trades ((s.tree t).missing (ways i j)).card (pagesIn (s.tree t) i j) s.mem s'.mem
  ents : ∀ x, s'.ledger T (.ent x) ≤ s.ledger T (.ent x)
  released : ∀ k, i ≤ k → k < j → ∀ q, (s.tree t).page k = some q → s'.ledger T (.ent q) = 0
  enough : ∀ k, i ≤ k → k < j → k < treePages ∧
    ((s.tree t).missing (ways i (k + 1))).card ≤ s.mem.freePages + pagesIn (s.tree t) i k

namespace Dropped

omit [DecidableEq ι] in
lemma refl (h : s.Sound U T) (i : ℕ) : Dropped U T t i s i s where
  sound := h
  beside := .refl s
  none k h1 h2 := by omega
  gains b := by simp
  trades := by
    rw [ways_self, pagesIn_self]
    exact (Memory.Alike.refl _).spends h.balanced.wired
  ents _ := Nat.le_refl _
  released k h1 h2 := by omega
  enough k h1 h2 := by omega

lemma sole (h : Dropped U T t i s j s') (ht : t ∈ T) (hsole : Sole T t s) : Sole T t s' := by
  intro k q hq
  have hk : k ∉ Set.Ico i j := fun hmem => by
    rw [h.none k hmem.1 hmem.2] at hq
    cases hq
  have hpos := ledger_pos_of_tree ht (Pagetree.ent_of_page hq)
  exact refs_of_le (hsole k q ((h.beside.page k hk).symm.trans hq)) hpos (h.ents q)
    (h.beside.pins q)

omit [DecidableEq ι] in
lemma card_succ (h : Dropped U T t i s j s') (hij : i ≤ j) :
    ((s.tree t).missing (ways i (j + 1))).card =
      ((s.tree t).missing (ways i j)).card + ((s'.tree t).missing (way j)).card := by
  rw [ways_succ hij, h.gains.card_missing]

lemma next (h : Dropped U T t i s j s') (ht : t ∈ T) (hsole : Sole T t s) (hij : i ≤ j)
    (hd : s'.Drops U T t j s'') : Dropped U T t i s (j + 1) s'' := by
  have hpage : (s'.tree t).page j = (s.tree t).page j :=
    h.beside.page j fun hmem => Nat.lt_irrefl j hmem.2
  have htrades := h.trades.trans hd.cleared.trades
  have hents : ∀ x, s''.ledger T (.ent x) ≤ s'.ledger T (.ent x) := fun x => by
    have := hd.ents x
    omega
  refine ⟨hd.sound, h.beside.next hij hd.beside, fun k h1 h2 => ?_, ?_, ?_,
    fun x => (hents x).trans (h.ents x), fun k h1 h2 q hq => ?_, fun k h1 h2 => ?_⟩
  · by_cases hkj : k = j
    · rw [hkj]
      exact hd.page
    · exact (hd.beside.page k hkj).trans (h.none k h1 (by omega))
  · rw [ways_succ hij]
    exact h.gains.trans hd.cleared.gains
  · rw [h.card_succ hij, pagesIn_succ _ hij, ← hpage]
    exact htrades
  · by_cases hkj : k = j
    · -- the one reference was this entry
      subst hkj
      rw [← hpage] at hq
      have hone := h.sole ht hsole k q hq
      have hless := hd.ents q
      rw [if_pos hq] at hless
      rw [Memory.refs] at hone
      omega
    · have hzero := h.released k h1 (by omega) q hq
      have := hents q
      omega
  · by_cases hkj : k = j
    · subst hkj
      have hfree := h.trades.free
      have henough := hd.cleared.enough
      rw [h.card_succ hij]
      exact ⟨hd.lt, by omega⟩
    · exact h.enough k h1 (by omega)

end Dropped

lemma dropPages_outcome (h : w.2.Sound U T) (ht : t ∈ T) (hsole : Sole T t w.2) :
    wp (loop (dropPage t) i n) (fun _ w' => w'.1 = w.1 ∧ Dropped U T t i w.2 (i + n) w'.2)
      ⟨fun _ _ => False, fun _ _ => 0 < n ∧ ¬ Droppable (w.2.tree t) w.2.mem i (i + n)⟩ w := by
  refine wp_loop (fun j w' => w'.1 = w.1 ∧ Dropped U T t i w.2 j w'.2) n i w ⟨rfl, .refl h i⟩ ?_
  rintro j ⟨heads, s1⟩ hj1 hj2 ⟨rfl, h1⟩
  simp only at h1
  simp only [dropPage, wp_bind, wp_attempt, wp_shared]
  refine wp_mono (putNull_drops h1.sound ht (h1.sole ht hsole j)) (fun _ s2 h2 => ?_)
    fun _ s2 h2 => ?_
  · exact ⟨rfl, h1.next ht hsole hj1 h2⟩
  · refine ⟨by omega, ?_⟩
    rintro ⟨hfit, hcalls, hfree⟩
    have hcard := h1.card_succ hj1
    rcases h2 with hle | hno
    · omega
    · rw [← Bool.not_eq_true, grants_iff h1.trades.wired'] at hno
      refine hno ⟨?_, fun c hc => ?_⟩
      · have := h1.trades.free
        have := hfree j hj1 hj2
        omega
      · rw [h1.trades.deny, h1.trades.calls, Nat.add_assoc]
        refine hcalls _ ?_
        have hsub : ways i (j + 1) ⊆ ways i (i + n) := ways_mono hj2
        have hmono := card_le_card ((w.2.tree t).missing_mono hsub)
        omega

omit [DecidableEq ι] in
lemma Dropped.droppable (h : Dropped U T t i s j s') (hij : i < j) :
    Droppable (s.tree t) s.mem i j := by
  have hlast := (h.enough (j - 1) (by omega) (by omega)).1
  exact ⟨by omega, h.trades.allowed, fun k h1 h2 => (h.enough k h1 h2).2⟩

lemma darraySetNent_outcome (h : w.2.Sound U T) (ht : t ∈ T) (hsole : Sole T t w.2)
    (hpp : (w.1 t).daPp = 1) (hdem : (w.1 t).daDemand = true) (hcur : (w.1 t).daNent < word64)
    (hn : n < word64) (clear : Bool) :
    wp (darraySetNent t n clear) (fun _ w' => w'.1 = update w.1 t { w.1 t with daNent := n } ∧
        Dropped U T t n w.2 (max n (w.1 t).daNent) w'.2)
      ⟨fun _ _ => False, fun _ _ => n < (w.1 t).daNent ∧
        ¬ Droppable (w.2.tree t) w.2.mem n (w.1 t).daNent⟩ w := by
  have hnpages : ∀ x < word64, (w.1 t).npages x = x := fun x hx => by
    rw [npages_eq (by rw [hpp]; exact hx), hpp, Nat.div_one]
    rfl
  have hend : n + ((w.1 t).daNent - n) = max n (w.1 t).daNent := by omega
  simp only [darraySetNent, head, growPages, setHead, wp_bind, wp_state, wp_pure, wp_change,
    hnpages _ hcur, hnpages _ hn]
  have hloop := dropPages_outcome (i := n) (n := (w.1 t).daNent - n) h ht hsole
  rw [hend] at hloop
  refine wp_imp hloop (fun _ w' hw => ?_) (fun _ _ => id) fun _ w' hno => ?_
  · rw [hw.1, hdem]
    exact ⟨by rw [hw.1], hw.2⟩
  · obtain ⟨hpos, hno⟩ := hno
    rw [Nat.max_eq_right (by omega)] at hno
    exact ⟨by omega, hno⟩

end Dropping

/-! ### One segment -/

variable {U : Finset Ppn} {T : Finset TreeId} {sg : Kobj} {s s' : Machine} {k numBytes : ℕ}

/-- The number of pages `segment_set_nbytes` asks for. -/
def npagesOf (numBytes : ℕ) : ℕ := roundup numBytes pgsize / pgsize

lemma le_npagesOf : numBytes ≤ npagesOf numBytes * pgsize ↔ numBytes + (pgsize - 1) < word64 := by
  have hpos : 0 < pgsize := by decide
  rw [npagesOf, roundup, rounddown, ← Nat.div_mul_self_eq_mod_sub_self, Nat.mul_div_cancel _ hpos]
  constructor
  · intro h
    by_contra hge
    -- a whole number of pages below `2 ^ 64` leaves room for one page more
    have hwrap : (numBytes + (pgsize - 1)) % word64 < pgsize * 2 ^ 52 := Nat.mod_lt _ (by decide)
    have hpages := Nat.div_lt_of_lt_mul hwrap
    have hmul : (2 ^ 52 - 1) * pgsize + pgsize = word64 := by decide
    have hle : (numBytes + (pgsize - 1)) % word64 / pgsize * pgsize ≤ (2 ^ 52 - 1) * pgsize :=
      Nat.mul_le_mul_right _ (by omega)
    omega
  · intro h
    rw [Nat.mod_eq_of_lt h]
    have hmod := Nat.div_add_mod (numBytes + (pgsize - 1)) pgsize
    have hlt := Nat.mod_lt (numBytes + (pgsize - 1)) hpos
    rw [Nat.mul_comm] at hmod
    omega

/-- One segment of a machine whose pages are accounted for. It is mapped nowhere, and its pages
are its own. -/
structure Lone (U : Finset Ppn) (T : Finset TreeId) (sg : Kobj) (s : Machine) : Prop where
  live : s.live sg = true
  type : (s.obj sg).koType = .segment
  unmapped : (s.obj sg).sg.sgMapList = []
  sound : s.forest.Sound U T
  mem : sgPages sg ∈ T
  pp : (s.darray (sgPages sg)).daPp = 1
  demand : (s.darray (sgPages sg)).daDemand = true
  small : (s.darray (sgPages sg)).daNent < word64
  beyond : ∀ k, (s.darray (sgPages sg)).daNent ≤ k → (s.forest.tree (sgPages sg)).page k = none
  sole : Sole T (sgPages sg) s.forest

/-- What `segment_set_nbytes` is meant to do: there are pages for all the bytes, the pages of the
segment that stay are as they were, and the others have been released. -/
structure Resized (sg : Kobj) (numBytes : ℕ) (s s' : Machine) : Prop where
  enough : numBytes ≤ (s'.darray (sgPages sg)).daNent * pgsize
  kept : ∀ k < (s'.darray (sgPages sg)).daNent,
    (s'.forest.tree (sgPages sg)).page k = (s.forest.tree (sgPages sg)).page k ∧
      ∀ q, (s.forest.tree (sgPages sg)).page k = some q → s'.mem.text q = s.mem.text q
  released : ∀ k, (s'.darray (sgPages sg)).daNent ≤ k →
    (s'.forest.tree (sgPages sg)).page k = none ∧
      ∀ q, (s.forest.tree (sgPages sg)).page k = some q → (s'.mem.info q).piRef = 0

/-- The size can be rounded up, and what has to be dropped can be. -/
def SizeFits (sg : Kobj) (numBytes : ℕ) (s : Machine) : Prop :=
  numBytes + (pgsize - 1) < word64 ∧
    (npagesOf numBytes < (s.darray (sgPages sg)).daNent →
      Droppable (s.forest.tree (sgPages sg)) s.mem (npagesOf numBytes)
        (s.darray (sgPages sg)).daNent)

lemma Lone.resized {n : ℕ} {w : (TreeId → Darray) × Forest TreeId} (h : Lone U T sg s)
    (hn : n < word64) (henough : numBytes + (pgsize - 1) < word64 → numBytes ≤ n * pgsize)
    (hw : w.1 = update s.darray (sgPages sg) { s.darray (sgPages sg) with daNent := n } ∧
      Dropped U T (sgPages sg) n s.forest (max n (s.darray (sgPages sg)).daNent) w.2) :
    Lone U T sg { s with darray := w.1, forest := w.2 } ∧ (w.1 (sgPages sg)).daNent = n ∧
      (numBytes + (pgsize - 1) < word64 →
        Resized sg numBytes s { s with darray := w.1, forest := w.2 }) ∧
      (n < (s.darray (sgPages sg)).daNent →
        Droppable (s.forest.tree (sgPages sg)) s.mem n (s.darray (sgPages sg)).daNent) := by
  obtain ⟨heads, s1⟩ := w
  obtain ⟨rfl, hd⟩ := hw
  simp only at hd
  have hnone : ∀ k, n ≤ k → (s1.tree (sgPages sg)).page k = none := fun k hk => by
    rcases Nat.lt_or_ge k (max n (s.darray (sgPages sg)).daNent) with hlt | hge
    · exact hd.none k hk hlt
    · rw [hd.beside.page k fun hmem => Nat.lt_irrefl _ (Nat.lt_of_lt_of_le hmem.2 hge)]
      exact h.beyond k (by omega)
  have hstay : ∀ k < n, k ∈ (Set.Ico n (max n (s.darray (sgPages sg)).daNent))ᶜ :=
    fun k hk hmem => Nat.lt_irrefl _ (Nat.lt_of_lt_of_le hk hmem.1)
  have hself : (update s.darray (sgPages sg)
      { s.darray (sgPages sg) with daNent := n } (sgPages sg)) =
        { s.darray (sgPages sg) with daNent := n } := update_self ..
  refine ⟨⟨h.live, h.type, h.unmapped, hd.sound, h.mem, ?_, ?_, ?_, ?_, hd.sole h.mem h.sole⟩,
    congrArg Darray.daNent hself, fun hfits => ⟨?_, ?_, ?_⟩, fun hlt => ?_⟩
  · simp only [hself]
    exact h.pp
  · simp only [hself]
    exact h.demand
  · simp only [hself]
    exact hn
  · simp only [hself]
    exact hnone
  · simp only [hself]
    exact henough hfits
  · simp only [hself]
    exact fun k hk => ⟨hd.beside.page k (hstay k hk), hd.beside.text k (hstay k hk)⟩
  · simp only [hself]
    refine fun k hk => ⟨hnone k hk, fun q hq => ?_⟩
    have hlt : k < (s.darray (sgPages sg)).daNent := by
      by_contra hge
      rw [h.beyond k (Nat.not_lt.mp hge)] at hq
      cases hq
    -- the entry that is gone was the only reference
    have hzero := hd.released k hk (lt_max_of_lt_right hlt) q hq
    have hone := h.sole k q hq
    have hpos := ledger_pos_of_tree h.mem (Pagetree.ent_of_page hq)
    have hpins := hd.beside.pins q
    rw [Memory.refs] at hone
    have href := (hd.sound.balanced.page q).ref
    rw [Memory.refs, hzero, hpins] at href
    rw [show (s.forest.mem.info q).piHwRef = 0 by omega] at href
    exact href
  · rw [Nat.max_eq_right hlt.le] at hd
    exact hd.droppable hlt

lemma wp_segmentOf {Q : Kobject → Machine → Prop} {X : Exits Errno Machine} (h : Lone U T sg s)
    (hQ : Q (s.obj sg) s) : wp (derefAs .segment sg) Q X s := by
  have hlive := h.live
  rw [Machine.live] at hlive
  rw [wp_derefAs]
  exact ⟨fun _ _ => hQ, fun _ hne => absurd h.type hne,
    fun hf => absurd (hlive.symm.trans hf) (by decide)⟩

/-- A call does what it is meant to, but that the bytes may be more than the pages hold. It stops
where a page cannot be dropped. -/
lemma segmentSetNbytes_outcome (h : Lone U T sg s) (numBytes : ℕ) :
    wp (segmentSetNbytes sg numBytes)
      (fun _ s' => Lone U T sg s' ∧ (s'.darray (sgPages sg)).daNent = npagesOf numBytes ∧
        (numBytes + (pgsize - 1) < word64 → Resized sg numBytes s s') ∧
        (npagesOf numBytes < (s.darray (sgPages sg)).daNent →
          Droppable (s.forest.tree (sgPages sg)) s.mem (npagesOf numBytes)
            (s.darray (sgPages sg)).daNent))
      ⟨fun _ _ => False, fun _ _ => ¬ SizeFits sg numBytes s⟩ s := by
  have henough : numBytes ≤ npagesOf numBytes * pgsize ↔ numBytes + (pgsize - 1) < word64 :=
    le_npagesOf
  simp only [segmentSetNbytes, segmentGetNpage, wp_bind, wp_state, wp_pure, SizeFits]
  have hsmall : npagesOf numBytes < word64 := roundup_div_lt numBytes
  rw [← npagesOf]
  generalize npagesOf numBytes = n at *
  refine wp_segmentOf h ?_
  refine wp_invalidate_unmapped h.live h.type h.unmapped ?_
  rw [wp_ite, wp_onArrays]
  refine ⟨fun _ => ?_, fun heq => ?_⟩
  · refine wp_imp (darraySetNent_outcome h.sound h.mem h.sole h.pp h.demand h.small hsmall false)
      (fun _ w hw => ?_) (fun _ _ => id) fun _ w hno hfits => hno.2 (hfits.2 hno.1)
    exact h.resized hsmall (fun hfits => henough.mpr hfits) hw
  · rw [not_not] at heq
    refine h.resized hsmall (fun hfits => henough.mpr hfits) (w := (s.darray, s.forest)) ⟨?_, ?_⟩
    · rw [← heq, update_eq_self]
    · rw [heq, Nat.max_self]
      exact .refl h.sound n

/-! ### Access -/

lemma Lone.withForest {f : Forest TreeId} (h : Lone U T sg s) (hsound : f.Sound U T)
    (hsole : Sole T (sgPages sg) f)
    (hpage : ∀ k, (s.darray (sgPages sg)).daNent ≤ k → (f.tree (sgPages sg)).page k =
      (s.forest.tree (sgPages sg)).page k) : Lone U T sg { s with forest := f } where
  live := h.live
  type := h.type
  unmapped := h.unmapped
  sound := hsound
  mem := h.mem
  pp := h.pp
  demand := h.demand
  small := h.small
  beyond k hk := (hpage k hk).trans (h.beyond k hk)
  sole := hsole

lemma Lone.write {m : Memory} (h : Lone U T sg s)
    (hsound : Forest.Sound U T { s.forest with mem := m })
    (hpins : ∀ q, (m.info q).piHwRef = (s.mem.info q).piHwRef) :
    Lone U T sg { s with forest := { s.forest with mem := m } } :=
  h.withForest hsound (h.sole.of_mem rfl rfl hpins) fun _ _ => rfl

lemma faultPage_lone (h : Lone U T sg s) (k : ℕ) (mode : PageSharingMode) :
    wp (segmentFaultPage sg k mode)
      (fun q s' => Lone U T sg s' ∧ ∃ j, (s'.forest.tree (sgPages sg)).page j = some q)
      (.both (Lone U T sg)) s := by
  rw [wp_segmentFaultPage]
  refine wp_segmentOf h ?_
  simp only [wp_onArrays, faultPage, darrayGet, head, wp_rules, h.pp, Nat.div_one, wp_shared]
  refine ⟨fun _ => h, fun hlt => ?_⟩
  refine wp_mono (getPage_sole h.sound h.mem h.sole k mode) (fun r f hf => ?_) fun _ f hf => ?_
  · obtain ⟨hsound, hsole, hr, hpage⟩ := hf
    have h1 := h.withForest hsound hsole fun j hj => hpage j (by omega)
    refine ⟨fun q hq => ?_, fun _ => trivial⟩
    rw [hq] at hr
    rw [onMem, wp_zoom]
    refine wp_of_never (clearOnce_spec f.mem q) fun _ m hm => ?_
    subst hm
    obtain ⟨y, hy, hqy⟩ := Pagetree.page_some.mp hr
    have hsheet : (f.sheet (T : Set TreeId)).page (sgPages sg, y) = some q :=
      sheet_page_some.mpr ⟨⟨h.mem, locate_valid hy⟩, hqy⟩
    exact ⟨h1.write (hsound.ready (subset_refl _) hsheet) ready_hw, k, hr⟩
  · obtain ⟨hsound, hsole, hpage⟩ := hf
    exact h.withForest hsound hsole fun j _ => hpage j

/-! ### Runs -/

/-- Resizing a segment, and reading and writing its pages. -/
def SegmentOp.on (sg : Kobj) : SegmentOp → Bool
  | .setNbytes sg' _ => sg' = sg
  | .load sg' _ _ => sg' = sg
  | .store sg' _ _ _ => sg' = sg
  | .alloc _ => false
  | .copy _ _ _ => false
  | .free _ => false

/-- What is done with one segment. A step that stops the kernel ends the run. -/
def resizing (sg : Kobj) (s0 : Machine) : System Machine SegmentOp where
  init s := s = s0
  step op s := if op.on sg then op.body.next s else none

lemma body_lone (h : Lone U T sg s) :
    ∀ op : SegmentOp, op.on sg = true →
      op.body.Leaves (Lone U T sg) s
  | .setNbytes sg' numBytes, hop => by
    obtain rfl : sg' = sg := of_decide_eq_true hop
    simp only [SegmentOp.body, wp_rules]
    exact wp_mono (segmentSetNbytes_outcome h numBytes) (fun _ _ hs => hs.1) fun _ _ => False.elim
  | .load sg' npage offset, hop => by
    obtain rfl : sg' = sg := of_decide_eq_true hop
    simp only [SegmentOp.body, wp_rules]
    exact wp_post (faultPage_lone h npage pageSharedCor) fun _ _ hs => hs.1
  | .store sg' npage offset x, hop => by
    obtain rfl : sg' = sg := of_decide_eq_true hop
    simp only [SegmentOp.body, wp_rules]
    refine wp_post (faultPage_lone h npage pageSharedCow) fun q s1 hs => ?_
    simp only [wp_onForest, onMem, wp_zoom, wp_change]
    obtain ⟨h1, -⟩ := hs
    exact h1.write ⟨h1.sound.balanced.setBytes q _, h1.sound.fits⟩ fun _ => rfl
  | .alloc _, hop => absurd hop nofun
  | .copy _ _ _, hop => absurd hop nofun
  | .free _, hop => absurd hop nofun

lemma segmentAlloc_lone (h : s.forest.Sound U T) (hnew : sgPages s.born ∉ T) (pid : ℕ) :
    wp (segmentAlloc pid) (fun sg s' => Lone U (insert (sgPages sg) T) sg s') .any s := by
  simp only [segmentAlloc, kobjectAlloc, idAlloc, bear, Machine.bear, Machine.collect, modSegment,
    wp_rules, wp_onForest, wp_archCpu, Machine.modObj, wp_onArrays, darrayInit, setHead, wp_shared,
    initTree]
  refine wp_mono (takePage_spec h pid) (fun p f hf => ⟨fun _ => ?_, fun _ => trivial⟩)
    fun _ _ _ => trivial
  replace hf := hf.1.sound
  have hsound : Forest.Sound U (insert (sgPages s.born) T)
      (f.withTree (sgPages s.born) (pagetreeInit true pid) f.mem) :=
    ⟨ledger_init (T := T) hnew ▸ hf.balanced, ledger_init (T := T) hnew ▸ hf.fits⟩
  have hnone : ∀ k, ((f.withTree (sgPages s.born) (pagetreeInit true pid) f.mem).tree
      (sgPages s.born)).page k = none := fun k => by
    rw [withTree_tree_self, Pagetree.page_init]
  refine ⟨?_, ?_, ?_, hsound, mem_insert_self _ _, ?_, ?_, ?_, fun k _ => hnone k, fun k q hq => ?_⟩
  · simp [Machine.live]
  · simp
  · simp
  · simp [pgsize]
  · simp
  · simp [word64]
  · exact absurd ((hnone k).symm.trans hq) (by simp)

lemma reachable_lone {s0 : Machine} (h : Lone U T sg s0) (hrun : (resizing sg s0).Reachable s) :
    Lone U T sg s := by
  refine hrun.invariant (fun s1 h1 => ?_) fun s1 op s2 h1 _ hstep => ?_
  · obtain rfl : s1 = s0 := h1
    exact h
  · simp only [resizing] at hstep
    split_ifs at hstep with hop
    exact next_of_wp (body_lone h1 op hop) hstep

/-- **A segment is resized as asked if its size can be rounded up and its pages can be dropped.**
Take a segment that is allocated on a machine whose pages are accounted for, and any calls of
`segment_set_nbytes` and accesses to its pages after that, in which the allocator may fail at any
call. The next call neither stops the kernel nor leaves too few pages, changes a page that stays
or keeps one that goes, if and only if the number of bytes does not wrap when it is rounded up
and, in case the segment shrinks, the walks to the pages it drops succeed. -/
theorem segment_resized_iff {U : Finset Ppn} {T : Finset TreeId} {s0 s1 s : Machine} {sg : Kobj}
    {pid : ℕ} (h0 : s0.forest.Sound U T) (hnew : sgPages s0.born ∉ T)
    (halloc : (segmentAlloc pid).result s0 = some (sg, s1)) (hrun : (resizing sg s1).Reachable s)
    (numBytes : ℕ) :
    wp (segmentSetNbytes sg numBytes) (fun _ s' => Resized sg numBytes s s')
        ⟨fun _ _ => True, fun _ _ => False⟩ s ↔ SizeFits sg numBytes s := by
  have halone : Lone U (insert (sgPages sg) T) sg s1 := by
    have hspec := segmentAlloc_lone h0 hnew pid
    rwa [wp, result_eq_some.mp halloc] at hspec
  have h := reachable_lone halone hrun
  have hcall := segmentSetNbytes_outcome h numBytes
  constructor
  · intro hsafe
    have hboth := wp_and hsafe hcall
    rw [wp] at hboth
    rcases hend : segmentSetNbytes sg numBytes s with ⟨_ | _ | _, s'⟩
    · rw [hend] at hboth
      obtain ⟨hresized, -, hnent, -, hdrop⟩ := hboth
      refine ⟨le_npagesOf.mp ?_, hdrop⟩
      rw [← hnent]
      exact hresized.enough
    · rw [hend] at hboth
      exact hboth.2.elim
    · rw [hend] at hboth
      exact hboth.1.elim
  · intro hfits
    exact wp_imp hcall (fun _ s' hs => hs.2.2.1 hfits.1) (fun _ _ _ => trivial)
      fun _ _ hno => hno hfits

/-- The state after a segment has been allocated on a machine with `k` pages, and some calls. -/
def sizedRun (k : ℕ) (ops : List SegmentOp) : Option Machine :=
  ((segmentAlloc 0).next (bareMachine k 1 0)).bind fun s =>
    (resizing 0 s).run (fun _ _ => true) ops s

/-- Five pages, one of them written to, and then three. -/
def shrinkRun (offset : Fin pgsize) : List SegmentOp :=
  [.setNbytes 0 (5 * 4096), .store 0 4 offset 1]

theorem segment_resized_iff_shrinkRun : ∃ s1 s,
    (segmentAlloc 0).result (bareMachine 8 1 0) = some (0, s1) ∧
      sizedRun 8 (shrinkRun ⟨7, by decide⟩) = some s ∧
      (wp (segmentSetNbytes 0 (3 * 4096)) (fun _ s' => Resized 0 (3 * 4096) s s')
        ⟨fun _ _ => True, fun _ _ => False⟩ s ↔ SizeFits 0 (3 * 4096) s) := by
  have hends : (sizedRun 8 (shrinkRun ⟨7, by decide⟩)).isSome = true := by decide +kernel
  have hfirst : ((segmentAlloc 0).result (bareMachine 8 1 0)).map Prod.fst = some 0 := by
    decide +kernel
  obtain ⟨s, hs⟩ := Option.isSome_iff_exists.mp hends
  obtain ⟨⟨sg, s1⟩, hs1, rfl⟩ := Option.map_eq_some_iff.mp hfirst
  have hsound : (bareMachine 8 1 0).forest.Sound (range 8) (∅ : Finset TreeId) :=
    (bareMachine_fresh 8 1 0).presents.shows.sound
  have hnext : (segmentAlloc 0).next (bareMachine 8 1 0) = some s1 := by
    rw [next, result_eq_some.mp hs1]
  have hrun := hs
  rw [sizedRun, hnext, Option.bind_some] at hrun
  have hreach : (resizing 0 s1).Reachable s :=
    (System.Reach.start rfl).run (fun _ _ _ => trivial) hrun
  exact ⟨s1, s, hs1, hs, segment_resized_iff hsound (notMem_empty _) hs1 hreach (3 * 4096)⟩

/-- Rounding up wraps and leaves a segment of no pages, and a segment that has grown beyond the
direct places cannot shrink again when there is no page for a block. -/
theorem segment_resize_stops :
    ((sizedRun 8 [.setNbytes 0 4096, .setNbytes 0 (2 ^ 64 - 1)]).map fun s =>
        (s.darray (sgPages 0)).daNent) = some 0 ∧
      ((sizedRun 1 [.setNbytes 0 (5 * 4096)]).map fun s =>
        ((segmentSetNbytes 0 4096).next s).isSome) = some false := by
  decide +kernel

end Corey.Kern
