import Corey.Dev.Disk
import Mathlib.Data.ZMod.Basic
import Mathlib.Tactic.Ring

/-!
The pins of a request to a disk.

The counts are followed modulo `2 ^ 32`, which is how the kernel counts. A page is pinned once for
each round of the loop, and the list of these pages is undone from its front.
-/

namespace Corey.Dev

open Function Corey.Comp Corey.Mem Corey.Kern Pagetree

/-! ### Counts -/

lemma atomicInc_cast (n : ℕ) : ((atomicInc n : ℕ) : ZMod Mem.word32) = n + 1 := by
  rw [atomicInc, ZMod.natCast_mod, Nat.cast_add, Nat.cast_one]

lemma atomicDec_cast (n : ℕ) : ((atomicDec n : ℕ) : ZMod Mem.word32) = n - 1 := by
  have hpos : 1 ≤ Mem.word32 := Nat.one_le_two_pow
  rw [atomicDec, ZMod.natCast_mod, Nat.cast_add, Nat.cast_sub hpos, ZMod.natCast_self, zero_sub,
    Nat.cast_one, sub_eq_add_neg]

lemma atomicInc_lt (n : ℕ) : atomicInc n < Mem.word32 := Nat.mod_lt _ (Nat.two_pow_pos 32)

lemma atomicDec_lt (n : ℕ) : atomicDec n < Mem.word32 := Nat.mod_lt _ (Nat.two_pow_pos 32)

lemma eq_of_cast_eq {n k : ℕ} (hn : n < Mem.word32) (hk : k < Mem.word32)
    (h : (n : ZMod Mem.word32) = k) : n = k := by
  rw [ZMod.natCast_eq_natCast_iff'] at h
  rwa [Nat.mod_eq_of_lt hn, Nat.mod_eq_of_lt hk] at h

lemma cast_ne_zero {n : ℕ} (hn : n < Mem.word32) (h : n ≠ 0) : (n : ZMod Mem.word32) ≠ 0 :=
  fun h0 => h (eq_of_cast_eq hn (Nat.two_pow_pos 32) (h0.trans Nat.cast_zero.symm))

def refs (m : Memory) (x : Ppn) : ZMod Mem.word32 := ((m.info x).piRef : ℕ)

def pins (m : Memory) (x : Ppn) : ZMod Mem.word32 := ((m.info x).piHwRef : ℕ)

/-- Counts have 32 bits. -/
def Narrow (m : Memory) : Prop :=
  ∀ x, (m.info x).piRef < Mem.word32 ∧ (m.info x).piHwRef < Mem.word32

variable {m m' : Memory} {p q x : Ppn} {s s' s'' : Disk} {r : Request} {P Q : List Ppn}
  {i k va j : ℕ} {X : Exits Errno Disk} {R : Unit → Disk → Prop}

lemma refs_of_sameCounts (h : m.SameCounts m') (x : Ppn) : refs m' x = refs m x := by
  rw [refs, refs, h.ref]

lemma pins_of_sameCounts (h : m.SameCounts m') (x : Ppn) : pins m' x = pins m x := by
  rw [pins, pins, h.pins]

lemma Narrow.sameCounts (hm : Narrow m) (h : m.SameCounts m') : Narrow m' := fun x => by
  rw [h.ref, h.pins]
  exact hm x

lemma Narrow.recounted {ref pin : ℕ} (hm : Narrow m) (h : m.Recounted p ref pin m')
    (href : ref < Mem.word32) (hpin : pin < Mem.word32) : Narrow m' := fun x => by
  by_cases hx : x = p
  · rw [hx, h.ref, h.pins]
    exact ⟨href, hpin⟩
  · rw [h.other x hx]
    exact hm x

lemma count_singleton_of_ne (hx : x ≠ p) : [p].count x = 0 :=
  List.count_eq_zero_of_not_mem fun h => hx (List.mem_singleton.mp h)

lemma pinned (h : m.Recounted p (atomicInc (m.info p).piRef) (atomicInc (m.info p).piHwRef) m')
    (x : Ppn) : refs m' x = refs m x + [p].count x ∧ pins m' x = pins m x + [p].count x := by
  by_cases hx : x = p
  · rw [hx, refs, pins, h.ref, h.pins, atomicInc_cast, atomicInc_cast, List.count_singleton_self,
      Nat.cast_one]
    exact ⟨rfl, rfl⟩
  · rw [refs, pins, h.other x hx, count_singleton_of_ne hx, Nat.cast_zero, add_zero, add_zero]
    exact ⟨rfl, rfl⟩

lemma unpinned (h : m.Recounted p (atomicDec (m.info p).piRef) (atomicDec (m.info p).piHwRef) m')
    (x : Ppn) : refs m' x = refs m x - [p].count x ∧ pins m' x = pins m x - [p].count x := by
  by_cases hx : x = p
  · rw [hx, refs, pins, h.ref, h.pins, atomicDec_cast, atomicDec_cast, List.count_singleton_self,
      Nat.cast_one]
    exact ⟨rfl, rfl⟩
  · rw [refs, pins, h.other x hx, count_singleton_of_ne hx, Nat.cast_zero, sub_zero, sub_zero]
    exact ⟨rfl, rfl⟩

/-! ### The reset -/

def Disk.withMem (s : Disk) (m : Memory) : Disk :=
  { s with machine := { s.machine with forest := { s.machine.forest with mem := m } } }

lemma wp_onMachine {α : Type} {c : KM α} {R : α → Disk → Prop} :
    wp (onMachine c) R X s ↔ wp c (fun a t => R a { s with machine := t })
      (X.comap fun t => { s with machine := t }) s.machine := wp_zoom

lemma wp_increfHw : wp (onMachine (increfHw va)) R X s ↔
      wp (pagetreeIncrefHw (va / pgsize)) (fun a m => R a (s.withMem m))
        (X.comap s.withMem) s.mem := by
  rw [wp_onMachine, increfHw, wp_onForest, Forest.onMem, wp_zoom]
  rfl

lemma wp_decrefHw : wp (onMachine (decrefHw va)) R X s ↔
      wp (pagetreeDecrefHw (va / pgsize)) (fun a m => R a (s.withMem m))
        (X.comap s.withMem) s.mem := by
  rw [wp_onMachine, decrefHw, wp_onForest, Forest.onMem, wp_zoom]
  rfl

/-- The pages of the entries of a disk. -/
def Disk.Holds (s : Disk) (c : ℕ) (Q : List Ppn) : Prop :=
  (∀ j < c, (s.dkIov j).iovBase = none) ∧
    ∀ j, c ≤ j → j ≤ diskFeedmax → (s.dkIov j).iovBase.map (· / pgsize) = Q[j - c]?

/-- The pages in `Q` have been unpinned, and nothing is pending. -/
structure Unpinned (Q : List Ppn) (s s' : Disk) : Prop where
  idle : ∀ j ≤ diskFeedmax, (s'.dkIov j).iovBase = none
  machine : s'.machine = (s.withMem s'.mem).machine
  refs : ∀ x, refs s'.mem x = refs s.mem x - Q.count x
  pins : ∀ x, pins s'.mem x = pins s.mem x - Q.count x
  memnode : s'.mem.memnode = s.mem.memnode
  nodeid : s'.mem.nodeid = s.mem.nodeid
  narrow : Narrow s.mem → Narrow s'.mem
  free : (∀ x, ∀ c < Q.count x, Dev.refs s.mem x - Q.count x + c ≠ 0) →
    ∀ x, (s'.mem.info x).piFreepage = (s.mem.info x).piFreepage

lemma count_cons_cast (p : Ppn) (Q : List Ppn) (x : Ppn) :
    (((p :: Q).count x : ℕ) : ZMod Mem.word32) = [p].count x + Q.count x := by
  rw [← Nat.cast_add, ← List.count_append, List.singleton_append]

lemma resetIov_spec : ∀ (Q : List Ppn) (k c : ℕ) (s : Disk), c + Q.length ≤ diskFeedmax →
    Q.length < k → s.Holds c Q → wp (resetIov k c) (fun _ s' => Unpinned Q s s') .mayStop s
  | _, 0, _, _, _, hk, _ => absurd hk (Nat.not_lt_zero _)
  | [], k + 1, c, s, hc, _, hholds => by
    have hnone : (s.dkIov c).iovBase = none := by
      have h := hholds.2 c le_rfl hc
      rw [List.getElem?_nil] at h
      exact Option.map_eq_none_iff.mp h
    simp only [resetIov, wp_rules, hnone]
    refine ⟨fun j hj => ?_, rfl, fun x => ?_, fun x => ?_, rfl, rfl, id, fun _ _ => rfl⟩
    · rcases Nat.lt_or_ge j c with hlt | hge
      · exact hholds.1 j hlt
      · have h := hholds.2 j hge hj
        rw [List.getElem?_nil] at h
        exact Option.map_eq_none_iff.mp h
    · rw [List.count_nil, Nat.cast_zero, sub_zero]
    · rw [List.count_nil, Nat.cast_zero, sub_zero]
  | p :: Q, k + 1, c, s, hc, hk, hholds => by
    simp only [List.length_cons] at hc hk
    have hbase := hholds.2 c le_rfl (by omega)
    rw [Nat.sub_self, List.getElem?_cons_zero] at hbase
    obtain ⟨va, hva, rfl⟩ := Option.map_eq_some_iff.mp hbase
    simp only [resetIov, wp_rules, hva, wp_decrefHw]
    refine wp_mono (pagetreeDecrefHw_recounted s.mem (va / pgsize)) (fun _ m hm => ?_)
      fun _ _ => False.elim
    obtain ⟨hdec, hflag⟩ := hm
    have hiov : ∀ j, (((s.withMem m).setBase c none).dkIov j).iovBase =
        if j = c then none else (s.dkIov j).iovBase := fun j => by
      simp only [Disk.setBase, Disk.withMem, update_apply]
      split_ifs <;> rfl
    have hnext : ((s.withMem m).setBase c none).Holds (c + 1) Q := by
      refine ⟨fun j hj => ?_, fun j hj hmax => ?_⟩
      · rw [hiov]
        split_ifs with h
        · rfl
        · exact hholds.1 j (by omega)
      · rw [hiov, if_neg (by omega), hholds.2 j (by omega) hmax,
          show j - c = j - (c + 1) + 1 by omega, List.getElem?_cons_succ]
    refine wp_post (resetIov_spec Q k (c + 1) _ (by omega) (by omega) hnext) fun _ s' h => ?_
    have hmem : ((s.withMem m).setBase c none).mem = m := rfl
    have hrefs : ∀ x, Dev.refs s'.mem x = Dev.refs s.mem x - ((va / pgsize) :: Q).count x := by
      intro x
      rw [h.refs, hmem, (unpinned hdec x).1, count_cons_cast (va / pgsize) Q x]
      exact sub_sub _ _ _
    refine ⟨h.idle, h.machine, hrefs, fun x => ?_, h.memnode.trans hdec.memnode,
      h.nodeid.trans hdec.nodeid,
      fun hs => h.narrow (hs.recounted hdec (atomicDec_lt _) (atomicDec_lt _)), fun hsolid x => ?_⟩
    · rw [h.pins, hmem, (unpinned hdec x).2, count_cons_cast (va / pgsize) Q x]
      exact sub_sub _ _ _
    · have hrest : ∀ x, ∀ c < Q.count x, Dev.refs m x - Q.count x + c ≠ 0 := by
        intro x c hc
        have hle : Q.count x ≤ ((va / pgsize) :: Q).count x := List.count_le_count_cons
        have hs := hsolid x c (Nat.lt_of_lt_of_le hc hle)
        rwa [count_cons_cast (va / pgsize) Q x, ← sub_sub, ← (unpinned hdec x).1] at hs
      rw [h.free hrest x, hmem]
      by_cases hx : x = va / pgsize
      · rw [hx]
        refine hflag fun hzero => ?_
        have hs := hsolid (va / pgsize) (Q.count (va / pgsize)) (by
          rw [List.count_cons_self]
          exact Nat.lt_succ_self _)
        refine hs ?_
        rw [count_cons_cast (va / pgsize) Q, ← sub_sub, ← (unpinned hdec _).1, sub_add_cancel,
          Dev.refs, hdec.ref, hzero, Nat.cast_zero]
      · rw [hdec.other x hx]

/-! ### One page -/

def Disk.withTree (s : Disk) (sg : Kobj) (z : Pagetree × Memory) : Disk :=
  { s with machine := { s.machine with
      forest := s.machine.forest.withTree (sgPages sg) z.1 z.2 } }

lemma wp_segmentGetPage {sg : Kobj} {mode : PageSharingMode} {R : Option Ppn → Disk → Prop}
    (hpp : (s.machine.obj sg).live = true → (s.machine.obj sg).koType = .segment →
      (s.machine.darray (sgPages sg)).daPp = 1) (hstop : ∀ w u, X.stop w u)
    (hend : (s.machine.darray (sgPages sg)).daNent ≤ k → X.err .inval s)
    (hget : k < (s.machine.darray (sgPages sg)).daNent →
      wp (pagetreeGetPage k mode) (fun a z => R a (s.withTree sg z)) (X.comap (s.withTree sg))
        (s.machine.forest.tree (sgPages sg), s.mem)) :
    wp (onMachine (segmentGetPage sg k mode)) R X s := by
  simp only [wp_onMachine, segmentGetPage, wp_rules, wp_derefAs, wp_onArrays, darrayGet, head,
    wp_shared]
  refine ⟨fun hlive htype => ⟨fun hge => ?_, fun hlt => ?_⟩, fun _ _ => hstop _ _,
    fun _ => hstop _ _⟩
  · exact hend hge
  · rw [hpp hlive htype, Nat.div_one, Forest.getPage, Forest.onTree, wp_zoom]
    exact hget (Nat.lt_of_not_le hlt)

lemma Ready.not_fails {t : Machine} {sg : Kobj} {mode : PageSharingMode} (h : Ready t sg k mode) :
    ¬ Fails t sg k mode := by
  obtain ⟨hlt, hpage, hno⟩ := h
  rintro (hge | hplace | hgrant)
  · exact absurd hlt (Nat.not_lt.mpr hge)
  · obtain ⟨x, hx⟩ := Option.ne_none_iff_exists'.mp hpage
    rw [← page_eq] at hx
    exact absurd (lt_of_page hx) (Nat.not_lt.mpr hplace)
  · obtain ⟨x, hx⟩ := Option.ne_none_iff_exists'.mp hpage
    rw [← page_eq] at hx
    obtain ⟨y, hy, hget⟩ := page_some.mp hx
    rw [if_neg hno, missing_of_reached hy (reached_of_page hget)] at hgrant
    cases hgrant

lemma mode_ne_excl (r : Request) : r.mode ≠ pageExcl := by
  rw [Request.mode]
  split_ifs <;> decide

lemma Has.le (hr : ¬ r.Invalid) (h : r.Has i) : i ≤ diskFeedmax := by
  have hcount : r.count ≤ 65536 := by
    simp only [Request.Invalid, not_or, not_not, Nat.not_lt] at hr
    exact hr.2.2
  have hoff : r.start % 4096 < 4096 := Nat.mod_lt _ (by decide)
  have hlt : i * 4096 < r.start % 4096 + r.count := h.2
  show i ≤ 16
  omega

lemma page_inj (hi : i ≤ diskFeedmax) (hj : j ≤ diskFeedmax) (h : r.page i = r.page j) : i = j := by
  have h16 : diskFeedmax = 16 := rfl
  have hword : word64 / pgsize = 4503599627370496 := by decide
  simp only [Request.page, hword] at h
  omega

/-! ### The loop -/

/-- The pages in `P` have been pinned and entered since `s`. -/
structure Feeding (s : Disk) (P : List Ppn) (s' : Disk) : Prop where
  holds : s'.Holds 0 P
  obj : s'.machine.obj = s.machine.obj
  darray : s'.machine.darray = s.machine.darray
  pins : ∀ x, pins s'.mem x = pins s.mem x + P.count x

/-- All of them were there, and nothing else has changed. -/
structure Plain (r : Request) (s : Disk) (P : List Ppn) (s' : Disk) : Prop where
  ready : ∀ j < P.length, Ready s.machine r.sg (r.page j) r.mode
  tree : s'.machine.forest.tree = s.machine.forest.tree
  alike : s.mem.Alike s'.mem
  refs : ∀ x, refs s'.mem x = refs s.mem x + P.count x
  solid : ∀ x, ∀ c < P.count x, Dev.refs s.mem x + c ≠ 0
  free : ∀ x, (s'.mem.info x).piFreepage = (s.mem.info x).piFreepage
  narrow : Narrow s'.mem

/-- There is a page with a reference that it did not have, from the place of round `j`. -/
structure Spoiled (r : Request) (s : Disk) (P : List Ppn) (s' : Disk) (j : ℕ) (q : Ppn) :
    Prop where
  accepted : ¬ Refused s r
  round : j < P.length
  used : (s'.mem.info q).piFreepage = false
  refs : refs s'.mem q = refs s.mem q + 1 + P.count q
  away : ∀ k ≠ r.page j, (s'.machine.forest.tree (sgPages r.sg)).page k ≠ some q

lemma count_snoc_cast (P : List Ppn) (p x : Ppn) :
    (((P ++ [p]).count x : ℕ) : ZMod Mem.word32) = P.count x + [p].count x := by
  rw [← Nat.cast_add, ← List.count_append]

lemma feed_pin {pgoff bytes : ℕ} (h : Feeding s P s') (hoff : pgoff < pgsize)
    (hm : s'.mem.Recounted p (atomicInc (s'.mem.info p).piRef) (atomicInc (s'.mem.info p).piHwRef)
      m) : Feeding s (P ++ [p]) ((s'.withMem m).setIov P.length (p * pgsize + pgoff) bytes) where
  holds := by
    refine ⟨fun j hj => absurd hj (Nat.not_lt_zero j), fun j _ hmax => ?_⟩
    have hpage : (p * pgsize + pgoff) / pgsize = p := by
      rw [Nat.mul_comm, Nat.mul_add_div (by decide), Nat.div_eq_of_lt hoff, Nat.add_zero]
    simp only [Disk.setIov, Disk.withMem, update_apply, Nat.sub_zero]
    split_ifs with hj
    · rw [hj, List.getElem?_concat_length, Option.map_some, hpage]
    · have hold := h.holds.2 j (Nat.zero_le j) hmax
      rw [Nat.sub_zero] at hold
      rw [hold]
      rcases Nat.lt_or_gt_of_ne hj with hlt | hgt
      · rw [List.getElem?_append_left hlt]
      · rw [List.getElem?_eq_none hgt.le, List.getElem?_eq_none]
        rw [List.length_append, List.length_singleton]
        exact hgt
  obj := h.obj
  darray := h.darray
  pins x := by
    show pins m x = _
    rw [(pinned hm x).2, h.pins, count_snoc_cast, add_assoc]

lemma diskReset_spec (h : s.Holds 0 P) (hlen : P.length ≤ diskFeedmax) (hstop : ∀ w u, X.stop w u)
    (hR : ∀ s', Unpinned P s s' → R () s') : wp diskReset R X s := by
  have hhdr : s.dkHdr = none := by
    have hlast := h.2 diskFeedmax (Nat.zero_le _) le_rfl
    rw [List.getElem?_eq_none (by omega)] at hlast
    exact Option.map_eq_none_iff.mp hlast
  simp only [diskReset, resetHdr, wp_rules, hhdr]
  exact wp_imp (resetIov_spec P (diskFeedmax + 1) 0 s (by omega) (by omega) h)
    (fun _ s' hs => hR s' hs) (fun _ _ => False.elim) fun w u _ => hstop w u

/-- The request is refused, and then everything is as before. -/
def Outcome (r : Request) (s s' : Disk) : Prop :=
  (Restored s s' ↔ Refused s r) ∧ (Refused s r → Proper s')

variable {pgoff bytes : ℕ} {mode : PageSharingMode} {sg : Kobj} {z : Pagetree × Memory} {u : Disk}
  {I : ℕ → Disk → Prop}

lemma wp_feedPage (hs : Proper s)
    (h : Feeding s P s') (hlen : P.length ≤ diskFeedmax) (hstop : ∀ w u, X.stop w u)
    (hend : (s.machine.darray (sgPages sg)).daNent ≤ k → ∀ u, Unpinned P s' u → X.err .inval u)
    (hget : k < (s.machine.darray (sgPages sg)).daNent → wp (pagetreeGetPage k mode)
        (fun a z => ∀ p m, a = some p → (z.2.info p).piRef ≠ 0 →
          z.2.Recounted p (atomicInc (z.2.info p).piRef) (atomicInc (z.2.info p).piHwRef) m →
          z.2.Alike m → (m.info p).piFreepage = (z.2.info p).piFreepage →
            R () (((s'.withTree sg z).withMem m).setIov P.length (p * pgsize + pgoff) bytes))
        ⟨fun e z => ∀ u, Unpinned P (s'.withTree sg z) u → X.err e u, fun _ _ => True⟩
        (s'.machine.forest.tree (sgPages sg), s'.mem)) :
    wp (feedPage sg mode k P.length pgoff bytes) R X s' := by
  simp only [feedPage, wp_bind, wp_onErr]
  refine wp_segmentGetPage (fun hlive htype => ?_) hstop (fun hge => ?_) fun hlt => ?_
  · rw [h.obj] at hlive htype
    rw [h.darray]
    exact hs.arrays sg hlive htype
  · rw [h.darray] at hge
    exact diskReset_spec h.holds hlen hstop (hend hge)
  · rw [h.darray] at hlt
    refine wp_imp (hget hlt) (fun a z hz => ?_) (fun e z hz => ?_) fun w z _ => hstop w _
    · refine wp_need.mpr ⟨fun p ha => ?_, fun _ => hstop _ _⟩
      rw [wp_increfHw, Nat.mul_div_cancel p (by decide : 0 < pgsize)]
      refine wp_imp (pagetreeIncrefHw_recounted z.2 p) (fun _ m hm => ?_) (fun _ _ => False.elim)
        fun _ _ _ => hstop _ _
      rw [wp_change]
      exact hz p m ha hm.1 hm.2.1 hm.2.2.1 hm.2.2.2
    · exact diskReset_spec (s := s'.withTree sg z) h.holds hlen hstop hz

lemma withTree_self (s : Disk) (sg : Kobj) :
    s.withTree sg (s.machine.forest.tree (sgPages sg), s.mem) = s := by
  simp only [Disk.withTree, Forest.withTree, update_eq_self]
  rfl

lemma Feeding.withTree (h : Feeding s P s')
    (hpins : ∀ x, (z.2.info x).piHwRef = (s'.mem.info x).piHwRef) :
    Feeding s P (s'.withTree sg z) where
  holds := h.holds
  obj := h.obj
  darray := h.darray
  pins x := by
    rw [← h.pins x]
    exact congrArg Nat.cast (hpins x)

lemma plain_restored {pt : Pagetree} (hs : Proper s) (hf : Feeding s P s')
    (hp : Plain r s P s') (hcounts : s'.mem.SameCounts m)
    (hpages : ∀ k, pt.page k = (s'.machine.forest.tree (sgPages r.sg)).page k)
    (hu : Unpinned P (s'.withTree r.sg (pt, m)) u) : Restored s u ∧ Proper u := by
  have hmem : (s'.withTree r.sg (pt, m)).mem = m := rfl
  have hrefs : ∀ x, refs u.mem x = refs s.mem x := fun x => by
    rw [hu.refs, hmem, refs_of_sameCounts hcounts, hp.refs, add_sub_cancel_right]
  have hpins : ∀ x, pins u.mem x = pins s.mem x := fun x => by
    rw [hu.pins, hmem, pins_of_sameCounts hcounts, hf.pins, add_sub_cancel_right]
  have hnarrow : Narrow u.mem := hu.narrow (hp.narrow.sameCounts hcounts)
  have hfree : ∀ x, (u.mem.info x).piFreepage = (m.info x).piFreepage := by
    refine hu.free fun x c hc => ?_
    rw [hmem, refs_of_sameCounts hcounts, hp.refs, add_sub_cancel_right]
    exact hp.solid x c hc
  refine ⟨fun x => ⟨?_, ?_⟩, hu.idle, fun sg hlive htype => ?_, fun t k x hx => ?_, hnarrow,
    fun pid => ?_⟩
  · exact eq_of_cast_eq (hnarrow x).2 (hs.counts x).2 (hpins x)
  · exact eq_of_cast_eq (hnarrow x).1 (hs.counts x).1 (hrefs x)
  · rw [hu.machine] at hlive htype ⊢
    have hlive' : (s'.machine.obj sg).live = true := hlive
    have htype' : (s'.machine.obj sg).koType = .segment := htype
    rw [hf.obj] at hlive' htype'
    show (s'.machine.darray (sgPages sg)).daPp = 1
    rw [hf.darray]
    exact hs.arrays sg hlive' htype'
  · have hold : (s.machine.forest.tree t).page k = some x := by
      rw [hu.machine] at hx
      rw [← hx, ← hp.tree]
      show _ = (update s'.machine.forest.tree (sgPages r.sg) pt t).page k
      rw [update_apply]
      split_ifs with ht
      · rw [ht, hpages]
      · rfl
    rw [hfree]
    by_contra hx
    have hused := hs.used t k x hold
    rw [← hp.free, hcounts.free x (Bool.not_eq_false _ ▸ hx)] at hused
    cases hused
  · rw [Memory.nmemnode, hu.nodeid, hu.memnode, hmem, hcounts.nodeid, hcounts.memnode,
      hp.alike.nodeid, hp.alike.memnode]
    exact hs.wired pid

lemma plain_snoc (hp : Plain r s P s') (hready : Ready s.machine r.sg (r.page P.length) r.mode)
    (hpos : (s'.mem.info p).piRef ≠ 0)
    (hm : s'.mem.Recounted p (atomicInc (s'.mem.info p).piRef) (atomicInc (s'.mem.info p).piHwRef)
      m)
    (halike : s'.mem.Alike m) (hflag : (m.info p).piFreepage = (s'.mem.info p).piFreepage) :
    Plain r s (P ++ [p]) ((s'.withMem m).setIov P.length (p * pgsize + pgoff) bytes) where
  ready j hj := by
    rw [List.length_append, List.length_singleton] at hj
    rcases Nat.lt_succ_iff_lt_or_eq.mp hj with hlt | rfl
    · exact hp.ready j hlt
    · exact hready
  tree := hp.tree
  alike := hp.alike.trans halike
  refs x := by
    show refs m x = _
    rw [(pinned hm x).1, hp.refs, count_snoc_cast, add_assoc]
  solid x c hc := by
    rw [List.count_append] at hc
    by_cases hlt : c < P.count x
    · exact hp.solid x c hlt
    · have hx : x = p := by
        by_contra hne
        rw [count_singleton_of_ne hne] at hc
        omega
      rw [hx, List.count_singleton_self] at hc
      rw [hx] at hlt ⊢
      rw [show c = P.count p by omega, ← hp.refs]
      exact cast_ne_zero (hp.narrow p).1 hpos
  free x := by
    show (m.info x).piFreepage = _
    rw [← hp.free]
    by_cases hx : x = p
    · rw [hx, hflag]
    · rw [hm.other x hx]
  narrow := hp.narrow.recounted hm (atomicInc_lt _) (atomicInc_lt _)

lemma spoiled_new (hs : Proper s) (hp : Plain r s P s') (haccepted : ¬ Refused s r)
    (hpages : ∀ j ≠ r.page P.length, z.1.page j = (s'.machine.forest.tree (sgPages r.sg)).page j)
    (hfresh : Fresh q ((s'.machine.forest.tree (sgPages r.sg)).page (r.page P.length)) s'.mem z.2)
    (hm : z.2.Recounted q (atomicInc (z.2.info q).piRef) (atomicInc (z.2.info q).piHwRef) m)
    (hflag : (m.info q).piFreepage = (z.2.info q).piFreepage) : Spoiled r s (P ++ [q])
      (((s'.withTree r.sg z).withMem m).setIov P.length (q * pgsize + pgoff) bytes) P.length q where
  accepted := haccepted
  round := by
    rw [List.length_append, List.length_singleton]
    exact Nat.lt_succ_self _
  used := hflag.trans hfresh.now
  refs := by
    show refs m q = _
    have hinc : refs z.2 q = refs s'.mem q + 1 := by
      rw [refs, refs, hfresh.ref, atomicInc_cast]
    rw [(pinned hm q).1, hinc, hp.refs, count_snoc_cast, add_right_comm _ _ 1, add_assoc]
  away k hk hpage := by
    have hold : (s.machine.forest.tree (sgPages r.sg)).page k = some q := by
      rw [← hp.tree, ← hpages k hk, ← hpage]
      show _ = (update s'.machine.forest.tree (sgPages r.sg) z.1 (sgPages r.sg)).page k
      rw [update_self]
    have hused := hs.used _ _ _ hold
    rw [← hp.free, hfresh.was] at hused
    cases hused

lemma spoiled_snoc (h : Spoiled r s P s' j q) (hne : p ≠ q) (hpage : z.1.page k ≠ some q)
    (hpages : ∀ j ≠ k, z.1.page j = (s'.machine.forest.tree (sgPages r.sg)).page j)
    (hinfo : z.2.info q = s'.mem.info q)
    (hm : z.2.Recounted p (atomicInc (z.2.info p).piRef) (atomicInc (z.2.info p).piHwRef) m) :
    Spoiled r s (P ++ [p])
      (((s'.withTree r.sg z).withMem m).setIov P.length (p * pgsize + pgoff) bytes) j q where
  accepted := h.accepted
  round := by
    rw [List.length_append]
    exact Nat.lt_add_right _ h.round
  used := by
    show (m.info q).piFreepage = false
    rw [hm.other q hne.symm, hinfo]
    exact h.used
  refs := by
    show refs m q = _
    have hsame : refs m q = refs s'.mem q := by
      rw [refs, refs, hm.other q hne.symm, hinfo]
    rw [hsame, h.refs, count_snoc_cast, count_singleton_of_ne hne.symm, Nat.cast_zero, add_zero]
  away n hn := by
    show (update s'.machine.forest.tree (sgPages r.sg) z.1 (sgPages r.sg)).page n ≠ some q
    rw [update_self]
    by_cases hnk : n = k
    · rw [hnk]
      exact hpage
    · rw [hpages n hnk]
      exact h.away n hn

lemma spoiled_not_restored {t : Disk} (h : Spoiled r s P s' j q)
    (hinfo : t.mem.info q = s'.mem.info q) (hu : Unpinned P t u) : ¬ Restored s u := by
  intro hrest
  have hrefs : refs u.mem q = refs s.mem q + 1 := by
    rw [hu.refs, refs, hinfo, ← refs, h.refs, add_sub_cancel_right]
  have hsame : refs u.mem q = refs s.mem q := congrArg Nat.cast (hrest q).2
  rw [hsame] at hrefs
  refine cast_ne_zero (by decide : 1 < Mem.word32) one_ne_zero ?_
  rw [Nat.cast_one]
  exact left_eq_add.mp hrefs

def Fed (r : Request) (s : Disk) (P : List Ppn) (s' : Disk) : Prop :=
  Feeding s P s' ∧ (Plain r s P s' ∨ ∃ j q, Spoiled r s P s' j q)

lemma not_refused (hr : ¬ r.Invalid) (hready : ∀ j < i, Ready s.machine r.sg (r.page j) r.mode)
    (hnot : ¬ Ready s.machine r.sg (r.page i) r.mode)
    (hfails : ¬ Fails s.machine r.sg (r.page i) r.mode) : ¬ Refused s r := by
  rintro (hinvalid | ⟨i', _, hready', hfails'⟩)
  · exact hr hinvalid
  · rcases Nat.lt_trichotomy i' i with hlt | rfl | hgt
    · exact (hready i' hlt).not_fails hfails'
    · exact hfails hfails'
    · exact hnot (hready' i hgt)

lemma plain_step (hs : Proper s) (hr : ¬ r.Invalid) (hhas : r.Has P.length) (hoff : pgoff < pgsize)
    (hf : Feeding s P s') (hp : Plain r s P s') :
    wp (feedPage r.sg r.mode (r.page P.length) P.length pgoff bytes)
      (fun _ u => ∃ p, Fed r s (P ++ [p]) u) ⟨fun _ u => Outcome r s u, fun _ _ => True⟩ s' := by
  have hrefused : ∀ {u : Disk}, Fails s.machine r.sg (r.page P.length) r.mode →
      Restored s u ∧ Proper u → Outcome r s u := by
    intro u hfails hu
    have href : Refused s r := .inr ⟨P.length, hhas, hp.ready, hfails⟩
    exact ⟨⟨fun _ => href, fun _ => hu.1⟩, fun _ => hu.2⟩
  refine wp_feedPage hs hf (Has.le hr hhas) (fun _ _ => trivial) (fun hge u hu => ?_) fun hlt => ?_
  · rw [← withTree_self s' r.sg] at hu
    exact hrefused (.inl hge)
      (plain_restored hs hf hp (Memory.Drawn.refl _).toSameCounts (fun _ => rfl) hu)
  · have htree : s'.machine.forest.tree (sgPages r.sg) = s.machine.forest.tree (sgPages r.sg) := by
      rw [hp.tree]
    by_cases hready : (s'.machine.forest.tree (sgPages r.sg)).Ready (r.page P.length) r.mode
    · refine wp_of_never (pagetreeGetPage_ready hready (mode_ne_excl r)) ?_
      rintro a z ⟨_, rfl⟩ p m _ hpos hm halike hflag
      rw [withTree_self]
      rw [htree] at hready
      exact ⟨p, feed_pin hf hoff hm, .inl (plain_snoc hp ⟨hlt, hready⟩ hpos hm halike hflag)⟩
    · have hused : ∀ x, (s'.machine.forest.tree (sgPages r.sg)).page (r.page P.length) = some x →
          (s'.mem.info x).piFreepage = false := by
        intro x hx
        rw [hp.free]
        rw [htree] at hx
        exact hs.used _ _ _ hx
      have hwired : ∀ pid, s'.mem.nodeid pid < s'.mem.nmemnode := by
        intro pid
        rw [Memory.nmemnode, hp.alike.nodeid, hp.alike.memnode]
        exact hs.wired pid
      have hfails : (s'.machine.forest.tree (sgPages r.sg)).Fails s'.mem (r.page P.length) r.mode ↔
          (s.machine.forest.tree (sgPages r.sg)).Fails s.mem (r.page P.length) r.mode := by
        rw [htree, Pagetree.Fails.congr hp.alike]
      refine wp_mono (wp_and (pagetreeGetPage_counts hused) (pagetreeGetPage_supply hwired))
        (fun a z hz p m ha _ hm _ hflag => ?_) fun e z hz u hu => ?_
      · rcases hz with ⟨⟨rfl, hpage, _, _⟩ | ⟨_, q, rfl, _, hpages, hfresh⟩, hgot⟩
        · exact absurd (hpage (by rw [ha]; exact Option.some_ne_none p)) hready
        · obtain rfl : q = p := Option.some.inj ha
          have haccepted : ¬ Refused s r := by
            refine not_refused hr hp.ready (fun h => hready (htree ▸ h.2)) ?_
            rintro (hge | hno)
            · exact absurd hlt (Nat.not_lt.mpr hge)
            · exact hgot (hfails.mpr hno)
          exact ⟨q, feed_pin (hf.withTree hfresh.pins) hoff hm,
            .inr ⟨P.length, q, spoiled_new hs hp haccepted hpages hfresh hm hflag⟩⟩
      · obtain ⟨⟨hpages, hcounts⟩, hno⟩ := hz
        exact hrefused (.inr (hfails.mp hno)) (plain_restored hs hf hp hcounts hpages hu)

lemma spoiled_step (hs : Proper s) (hr : ¬ r.Invalid) (hhas : r.Has P.length)
    (hoff : pgoff < pgsize) (hf : Feeding s P s') (hp : Spoiled r s P s' j q) :
    wp (feedPage r.sg r.mode (r.page P.length) P.length pgoff bytes)
      (fun _ u => ∃ p, Fed r s (P ++ [p]) u) ⟨fun _ u => Outcome r s u, fun _ _ => True⟩ s' := by
  have hlen := Has.le hr hhas
  have hk : r.page P.length ≠ r.page j := fun h =>
    absurd (page_inj hlen (hp.round.le.trans hlen) h) hp.round.ne'
  have hleft : ∀ {u t : Disk}, t.mem.info q = s'.mem.info q → Unpinned P t u → Outcome r s u :=
    fun hinfo hu => ⟨⟨fun h => absurd h (spoiled_not_restored hp hinfo hu),
      fun h => absurd h hp.accepted⟩, fun h => absurd h hp.accepted⟩
  refine wp_feedPage hs hf hlen (fun _ _ => trivial) (fun _ u hu => hleft rfl hu) fun _ => ?_
  refine wp_mono (pagetreeGetPage_away hp.used (hp.away _ hk))
    (fun a z hz p m ha _ hm _ _ => ?_) fun e z hz u hu => ?_
  · obtain ⟨⟨hne, hpage, hpages, hinfo⟩, hpins⟩ := hz
    have hpq : p ≠ q := fun h => hne (by rw [ha, h])
    exact ⟨p, feed_pin (hf.withTree hpins) hoff hm,
      .inr ⟨j, q, spoiled_snoc hp hpq hpage hpages hinfo hm⟩⟩
  · exact hleft (t := s'.withTree r.sg z) hz.1.2 hu

lemma fed_step (hs : Proper s) (hr : ¬ r.Invalid) (hhas : r.Has P.length) (hoff : pgoff < pgsize)
    (h : Fed r s P s') :
    wp (feedPage r.sg r.mode (r.page P.length) P.length pgoff bytes)
      (fun _ u => ∃ p, Fed r s (P ++ [p]) u) ⟨fun _ u => Outcome r s u, fun _ _ => True⟩ s' := by
  obtain ⟨hf, hp | ⟨j, q, hp⟩⟩ := h
  · exact plain_step hs hr hhas hoff hf hp
  · exact spoiled_step hs hr hhas hoff hf hp

/-! ### How far the loop has come -/

/-- How much of the data comes before piece `i`. -/
def Request.before (r : Request) (i : ℕ) : ℕ := min r.count (i * pgsize - r.start % pgsize)

/-- Where piece `i` begins in its page. -/
def Request.off (r : Request) (i : ℕ) : ℕ := r.start % pgsize - i * pgsize

def Request.len (r : Request) (i : ℕ) : ℕ := min (r.count - r.before i) (pgsize - r.off i)

/-- The number of the entries, as the loop of `disk_feed` counts them. -/
def feedCount (reqcount : ℕ) : ℕ → ℕ → ℕ → ℕ → ℕ
  | 0, i, _, _ => i
  | k + 1, i, count, pgoff =>
    if reqcount = count then i
    else feedCount reqcount k (i + 1) (count + min (reqcount - count) (pgsize - pgoff)) 0

def Request.iovCnt (r : Request) : ℕ := feedCount r.count r.count 0 0 (r.start % pgsize)

lemma off_lt (r : Request) (i : ℕ) : r.off i < pgsize :=
  (Nat.sub_le _ _).trans_lt (Nat.mod_lt _ (by decide))

lemma before_succ (r : Request) (i : ℕ) : r.before (i + 1) = r.before i + r.len i := by
  have hlt := Nat.mod_lt r.start (by decide : 0 < pgsize)
  simp only [Request.before, Request.len, Request.off, Nat.add_mul, Nat.one_mul]
  omega

lemma has_iff : r.Has i ↔ r.before i < r.count := by
  simp only [Request.Has, Request.before]
  omega

lemma len_pos (h : r.Has i) : 0 < r.len i := by
  have hlt := off_lt r i
  have hbefore := has_iff.mp h
  simp only [Request.len]
  omega

lemma place (h : r.Has i) {c : ℕ} (hc : c < r.len i) :
    (r.start + (r.before i + c)) % word64 / pgsize = r.page i ∧
      (r.start + (r.before i + c)) % word64 % pgsize = r.off i + c := by
  have hword : word64 = pgsize * (word64 / pgsize) := by decide
  have hsum : r.start + (r.before i + c) = pgsize * (r.start / pgsize + i) + (r.off i + c) := by
    have hdiv := Nat.div_add_mod r.start pgsize
    have hbefore := has_iff.mp h
    simp only [Request.before, Request.off, Nat.mul_add, Nat.mul_comm pgsize i] at hbefore ⊢
    omega
  have hlt : r.off i + c < pgsize := by
    simp only [Request.len] at hc
    omega
  rw [hword, Nat.mod_mul_right_div_self, Nat.mod_mul_right_mod, hsum, Nat.mul_add_div (by decide),
    Nat.div_eq_of_lt hlt, Nat.add_zero, Nat.mul_add_mod, Nat.mod_eq_of_lt hlt]
  exact ⟨rfl, rfl⟩

lemma lt_of_has {n : ℕ} (hend : r.before n = r.count) (h : r.Has j) : j < n := by
  have hbefore := has_iff.mp h
  simp only [Request.before, pgsize] at hbefore hend
  omega

/-- **The loop of `disk_feed`.** What each round carries on holds at its end, when all of the data
has been entered. -/
lemma feedIov_rule (hstep : ∀ i u, r.Has i → I i u →
      wp (feedPage r.sg r.mode (r.page i) i (r.off i) (r.len i)) (fun _ => I (i + 1)) X u) :
    ∀ (k i : ℕ) (u : Disk), r.count - r.before i ≤ k → I i u →
      wp (feedIov r.sg r.mode r.start r.count k i (r.before i) (r.off i))
        (fun _ u' => ∃ n, n = feedCount r.count k i (r.before i) (r.off i) ∧
          r.before n = r.count ∧ I n u') X u := by
  intro k
  induction k with
  | zero =>
    intro i u hk h
    have hle : r.before i ≤ r.count := Nat.min_le_left _ _
    exact ⟨i, rfl, by omega, h⟩
  | succ k ih =>
    intro i u hk h
    have hle : r.before i ≤ r.count := Nat.min_le_left _ _
    simp only [feedIov, feedCount, wp_rules]
    refine ⟨fun hend => ⟨i, by rw [if_pos hend], hend.symm, h⟩, fun hne => ?_⟩
    have hhas : r.Has i := has_iff.mpr (by omega)
    have hpos := len_pos hhas
    have hsucc := before_succ r i
    have hoff : r.off (i + 1) = 0 := by
      have hlt := Nat.mod_lt r.start (by decide : 0 < pgsize)
      simp only [Request.off, Nat.add_mul, Nat.one_mul]
      omega
    have hplace := (place hhas hpos).1
    rw [Nat.add_zero] at hplace
    rw [hplace, if_neg hne]
    refine wp_post (hstep i u hhas h) fun _ u' h' => ?_
    have hnext := ih (i + 1) u' (by omega) h'
    rwa [hsucc, hoff] at hnext

lemma feedIov_all (hstep : ∀ i u, r.Has i → I i u →
      wp (feedPage r.sg r.mode (r.page i) i (r.off i) (r.len i)) (fun _ => I (i + 1)) X u)
    (h : I 0 s) : wp (feedIov r.sg r.mode r.start r.count r.count 0 0 (r.start % pgsize))
      (fun _ u => r.before r.iovCnt = r.count ∧ I r.iovCnt u) X s := by
  have hfirst : r.before 0 = 0 ∧ r.off 0 = r.start % pgsize := by
    simp [Request.before, Request.off]
  have hloop := feedIov_rule hstep r.count 0 s (Nat.sub_le _ _) h
  rw [hfirst.1, hfirst.2] at hloop
  refine wp_post hloop fun _ u hu => ?_
  obtain ⟨_, rfl, hu⟩ := hu
  exact hu

/-! ### Requests that are carried out -/

lemma not_restored_of_pins {n : ℕ} (h : pins s'.mem x = pins s.mem x + n) (hpos : n ≠ 0)
    (hn : n < Mem.word32) : ¬ Restored s s' := by
  intro hrest
  have hsame : pins s'.mem x = pins s.mem x := congrArg Nat.cast (hrest x).1
  rw [hsame] at h
  exact cast_ne_zero hn hpos (left_eq_add.mp h)

lemma Fed.accepted (hr : ¬ r.Invalid) (hall : ∀ j, r.Has j → j < P.length) (h : Fed r s P s') :
    ¬ Refused s r := by
  obtain ⟨_, hp | ⟨j, q, hp⟩⟩ := h
  · rintro (hinvalid | ⟨i, hhas, _, hfails⟩)
    · exact hr hinvalid
    · exact (hp.ready i (hall i hhas)).not_fails hfails
  · exact hp.accepted

lemma diskIoCb_spec (h : Feeding s P s')
    (hlen : P.length ≤ diskFeedmax + 1) (hstop : ∀ w u, X.stop w u)
    (hiov : u.dkIov = (s'.setBase diskFeedmax (some r.hdr)).dkIov)
    (hpins : ∀ x, pins u.mem x = pins s.mem x + P.count x + [r.hdr / pgsize].count x) :
    wp diskIoCb (fun _ u => ¬ Restored s u) X u := by
  have hhdr : u.dkHdr = some r.hdr := by
    rw [Disk.dkHdr, hiov, Disk.setBase]
    simp only [update_self]
  simp only [diskIoCb, diskReset, resetHdr, wp_rules, hhdr, Option.some.injEq, reduceCtorEq,
    false_implies, and_true, wp_increfHw]
  rintro _ rfl
  refine wp_imp (pagetreeIncrefHw_recounted u.mem _) (fun _ m hm => ?_) (fun _ _ => False.elim)
    fun w _ _ => hstop w _
  have hholds : ((u.withMem m).setBase diskFeedmax none).Holds 0 (P.take diskFeedmax) := by
    refine ⟨fun j hj => absurd hj (Nat.not_lt_zero j), fun j _ hmax => ?_⟩
    simp only [Disk.setBase, Disk.withMem, update_apply, hiov, Nat.sub_zero]
    split_ifs with hj
    · rw [List.getElem?_take_eq_none hj.ge, Option.map_none]
    · rw [List.getElem?_take_of_lt (lt_of_le_of_ne hmax hj)]
      exact h.holds.2 j (Nat.zero_le j) hmax
  have htake : (P.take diskFeedmax).length ≤ diskFeedmax := List.length_take_le _ _
  refine wp_imp (resetIov_spec _ _ 0 _ (by rwa [Nat.zero_add]) (Nat.lt_succ_of_le htake) hholds)
    (fun _ v hv => ?_) (fun _ _ => False.elim) fun w _ _ => hstop w _
  set H := r.hdr / pgsize
  have hdrop : (P.drop diskFeedmax).count H ≤ 1 := by
    refine List.count_le_length.trans ?_
    rw [List.length_drop]
    omega
  have hsplit : P.count H = (P.take diskFeedmax).count H + (P.drop diskFeedmax).count H := by
    rw [← List.count_append, List.take_append_drop]
  refine not_restored_of_pins (x := H) (n := (P.drop diskFeedmax).count H + 2) ?_ (by omega)
    (Nat.lt_of_le_of_lt (Nat.add_le_add_right hdrop 2) (by decide))
  have hmem : ((u.withMem m).setBase diskFeedmax none).mem = m := rfl
  rw [hv.pins, hmem, (pinned hm.2.1 H).2, hpins, List.count_singleton_self, hsplit]
  push_cast
  ring

lemma Outcome.of_not (hrest : ¬ Restored s s') (hno : ¬ Refused s r) : Outcome r s s' :=
  ⟨⟨fun h => absurd h hrest, fun h => absurd h hno⟩, fun h => absurd h hno⟩

lemma Fed.start (hs : Proper s) : Fed r s [] s := by
  refine ⟨⟨⟨fun j hj => absurd hj (Nat.not_lt_zero j), fun j _ hj => ?_⟩, rfl, rfl, fun x => ?_⟩,
    .inl ⟨fun j hj => absurd hj (Nat.not_lt_zero j), rfl, Memory.Alike.refl _, fun x => ?_,
      fun x c hc => absurd hc (Nat.not_lt_zero c), fun _ => rfl, hs.counts⟩⟩
  · rw [hs.idle j hj, Option.map_none, List.getElem?_nil]
  · rw [List.count_nil, Nat.cast_zero, add_zero]
  · rw [List.count_nil, Nat.cast_zero, add_zero]

lemma body_spec (r : Request) (hs : Proper s) :
    wp r.body (fun _ u => Outcome r s u) (.both (Outcome r s)) s := by
  simp only [Request.body, wp_rules, diskFeed]
  refine ⟨fun hr => ⟨⟨fun _ => .inl hr, fun _ _ => ⟨rfl, rfl⟩⟩, fun _ => hs⟩, fun hr => ?_⟩
  refine wp_post (feedIov_all (I := fun i u => ∃ P, P.length = i ∧ i ≤ diskFeedmax + 1 ∧
    Fed r s P u) (fun i u hhas h => ?_) ⟨[], rfl, Nat.zero_le _, Fed.start hs⟩) fun _ s' h => ?_
  · obtain ⟨P, rfl, -, hfed⟩ := h
    refine wp_post (fed_step hs hr hhas (off_lt r _) hfed) fun _ u' ⟨p, hu⟩ => ?_
    exact ⟨P ++ [p], List.length_append, Nat.succ_le_succ (Has.le hr hhas), hu⟩
  obtain ⟨hend, P, hn, hlen, hfed⟩ := h
  rw [← hn] at hend hlen
  have hall : ∀ j, r.Has j → j < P.length := fun j => lt_of_has hend
  have hno := hfed.accepted hr hall
  rw [wp_increfHw]
  refine wp_mono (pagetreeIncrefHw_recounted s'.mem _) (fun _ m hm => ?_) fun _ _ => False.elim
  have hpins : ∀ x, pins m x = pins s.mem x + P.count x + [r.hdr / pgsize].count x := fun x => by
    rw [(pinned hm.2.1 x).2, hfed.1.pins]
  cases hanswer : r.answer with
  | none =>
    simp only [wp_pure]
    exact wp_post (diskIoCb_spec hfed.1 hlen (fun _ _ => trivial) rfl hpins)
      fun _ u hu => .of_not hu hno
  | some e =>
    -- the driver does not take the request, and nobody unpins its pages
    have hcount : P.count (r.hdr / pgsize) + 1 < Mem.word32 :=
      Nat.lt_of_le_of_lt (Nat.add_le_add_right (List.count_le_length.trans hlen) 1) (by decide)
    simp only [wp_raise]
    refine .of_not (not_restored_of_pins (x := r.hdr / pgsize) ?_ (Nat.succ_ne_zero _) hcount) hno
    refine (hpins _).trans ?_
    rw [List.count_singleton_self, add_assoc, ← Nat.cast_add]

/-- **The pins of a request are undone just if it is refused**: because of its header, or because
a page cannot be got after pages all of which were there. -/
theorem disk_restored_iff {s0 s s' : Disk} {r : Request} (h0 : Proper s0)
    (hrun : (requests s0).Reach Refused s) (hstep : (requests s0).step r s = some s') :
    Restored s s' ↔ Refused s r := by
  have hproper : Proper s := by
    refine hrun.invariant (fun s hs => ?_) fun s r s' hs href hnext => ?_
    · rw [hs]
      exact h0
    · exact (next_of_wp (body_spec r hs) hnext).2 href
  exact (next_of_wp (body_spec r hproper) hstep).1

/-- A segment of one page, which is page 8 of the machine. -/
def onePage : Disk where
  machine := { bareMachine 8 1 0 with
    obj := update (fun _ => {}) 0 { live := true, koRef := 1 }
    darray := update (fun _ => {}) (sgPages 0) { daPp := 1, daEsz := pgsize, daNent := 1 }
    forest := { (bareMachine 8 1 0).forest with
      tree := update (fun _ => pagetreeInit true 0) (sgPages 0)
        { pagetreeInit true 0 with
          ptDirect := update (fun _ => {}) 0 ⟨some 8, pageExcl⟩ }
      mem := { bootMemory 8 with
        info := fun p => { piRef := if p = 8 then 1 else 0, piFreepage := decide (p < 8) } } } }

lemma onePage_proper : Proper onePage where
  idle _ _ := rfl
  arrays sg hlive _ := by
    by_cases hsg : sg = 0
    · rw [hsg]
      rfl
    · simp only [onePage, update_of_ne hsg] at hlive
      cases hlive
  used t k x hx := by
    obtain ⟨y, -, hy⟩ := page_some.mp hx
    have hx8 : x = 8 := by
      simp only [onePage, update_apply] at hy
      cases y with
      | direct i =>
        split_ifs at hy
        · simp only [Pagetree.get, update_apply] at hy
          split_ifs at hy
          exact (Option.some.inj hy).symm
        · cases hy
      | indirect i n => split_ifs at hy <;> cases hy
    rw [hx8]
    rfl
  counts x := by
    refine ⟨?_, Nat.two_pow_pos 32⟩
    show (if x = 8 then 1 else 0) < Mem.word32
    split_ifs <;> decide
  wired _ := Nat.one_pos

/-- A request for a page and a part of the one behind it. -/
def beyondEnd : Request where
  sg := 0
  offset := 0
  hdr := 8 * 4096
  address := 0
  count := 4096
  type := devioIn

/-- The second page is not there, and the first one is unpinned. -/
theorem disk_restored_iff_onePage : Proper onePage ∧ (requests onePage).Reach Refused onePage ∧
    ∃ s', (requests onePage).step beyondEnd onePage = some s' ∧ Restored onePage s' := by
  have hready : Ready onePage.machine 0 (beyondEnd.page 0) beyondEnd.mode :=
    ⟨by decide, by decide +kernel⟩
  have href : Refused onePage beyondEnd := by
    refine .inr ⟨1, by decide, fun j hj => ?_, .inl (by decide)⟩
    rw [Nat.lt_one_iff.mp hj]
    exact hready
  have hends : ((requests onePage).step beyondEnd onePage).isSome = true := by decide +kernel
  obtain ⟨s', hs'⟩ := Option.isSome_iff_exists.mp hends
  have hreach : (requests onePage).Reach Refused onePage := .start rfl
  exact ⟨onePage_proper, hreach, s', hs', (disk_restored_iff onePage_proper hreach hs').mpr href⟩

/-- A request that fits the page completes, and its page is pinned twice and has two references
more than before. -/
theorem disk_leaves_pins :
    (((requests onePage).step { beyondEnd with count := 512 } onePage).map fun s =>
      ((s.mem.info 8).piHwRef, (s.mem.info 8).piRef)) = some (2, 3) := by
  decide +kernel

end Corey.Dev
