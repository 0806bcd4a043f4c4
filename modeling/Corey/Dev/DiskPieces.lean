import Corey.Dev.DiskPins

/-!
The pieces of a request to a disk.

Each round of the loop of `disk_feed` enters one piece of the data, which is in one page. How far
the loop has come is a function of the number of rounds, and so is each of the pieces. There are 17
of them when 64 kilobytes do not begin with a page.
-/

namespace Corey.Dev

open Function Corey.Comp Corey.Mem Corey.Kern

/-- Where byte `c` of the data is. -/
def Request.byteAt (r : Request) (s : Disk) (c : ℕ) : Option ℕ :=
  ((s.machine.forest.tree (sgPages r.sg)).page ((r.start + c) % word64 / pgsize)).map
    (· * pgsize + (r.start + c) % word64 % pgsize)

/-- Where the bytes of an entry are. -/
def Kiovec.bytes (v : Kiovec) : List (Option ℕ) :=
  (List.range v.iovLen).map fun c => v.iovBase.map (· + c)

/-- The pages of the first `n` entries. -/
def Disk.pages (s : Disk) (n : ℕ) : List Ppn :=
  (List.range n).map fun j => (s.dkIov j).iovBase.getD 0 / pgsize

/-- The request has been cut into the entries of the array, and a reset unpins the page of each of
them. -/
structure Cuts (r : Request) (s : Disk) : Prop where
  index : r.iovCnt ≤ diskFeedmax
  inside : ∀ j < r.iovCnt, (s.dkIov j).iovLen ≠ 0 ∧ ∃ va, (s.dkIov j).iovBase = some va ∧
    va % pgsize + (s.dkIov j).iovLen ≤ pgsize
  bytes : (List.range r.iovCnt).flatMap (fun j => (s.dkIov j).bytes) =
    (List.range r.count).map (r.byteAt s)
  reset : wp diskReset (fun _ t => (∀ j ≤ diskFeedmax, (t.dkIov j).iovBase = none) ∧
    ∀ x, pins t.mem x = pins s.mem x + [r.hdr / pgsize].count x - (s.pages r.iovCnt).count x)
    Exits.mayStop s

variable {r : Request} {s s' u : Disk} {i j k n : ℕ}

/-! ### The loop -/

/-- The pieces before `i` have been entered since `s`, and their pages pinned. -/
structure Filled (r : Request) (s : Disk) (i : ℕ) (u : Disk) : Prop where
  obj : u.machine.obj = s.machine.obj
  darray : u.machine.darray = s.machine.darray
  has : ∀ j < i, r.Has j
  piece : ∀ j < i, ∃ p, (u.machine.forest.tree (sgPages r.sg)).page (r.page j) = some p ∧
    u.dkIov j = ⟨some (p * pgsize + r.off j), r.len j⟩
  rest : ∀ j ≥ i, u.dkIov j = s.dkIov j
  pins : ∀ x, ∃ c ≤ i, pins u.mem x = pins s.mem x + c

lemma resetIov_hdr {X : Exits Errno Disk} (hstop : ∀ w u, X.stop w u) : ∀ (k i : ℕ) (s : Disk),
    s.dkHdr = none → wp (resetIov k i) (fun _ u => u.dkHdr = none) X s
  | 0, _, _, _ => hstop _ _
  | k + 1, i, s, h => by
    simp only [resetIov, wp_rules]
    split
    · exact h
    · simp only [wp_rules, wp_decrefHw]
      refine wp_imp (pagetreeDecrefHw_recounted s.mem _) (fun _ m _ => ?_)
        (fun _ _ => False.elim) fun _ _ _ => hstop _ _
      refine resetIov_hdr hstop k (i + 1) _ ?_
      simp only [Disk.dkHdr, Disk.setBase, Disk.withMem, update_apply] at h ⊢
      split_ifs <;> simp [h]

lemma diskReset_hdr {X : Exits Errno Disk} (hstop : ∀ w u, X.stop w u) (s : Disk) :
    wp diskReset (fun _ u => u.dkHdr = none) X s := by
  simp only [diskReset, resetHdr, wp_rules]
  split
  · exact resetIov_hdr hstop _ _ _ ‹_›
  · simp only [wp_rules, wp_increfHw]
    refine wp_imp (pagetreeIncrefHw_recounted s.mem _) (fun _ m _ => ?_)
      (fun _ _ => False.elim) fun _ _ _ => hstop _ _
    exact resetIov_hdr hstop _ _ _ (by simp [Disk.dkHdr, Disk.setBase])

/-- The arrays of segments are arrays of pages. -/
def Disk.Paged (s : Disk) : Prop :=
  ∀ sg, (s.machine.obj sg).live = true → (s.machine.obj sg).koType = .segment →
    (s.machine.darray (sgPages sg)).daPp = 1

lemma filled_step (hs : s.Paged) (hr : ¬ r.Invalid) (h : Filled r s i u)
    (hi : r.Has i) :
    wp (feedPage r.sg r.mode (r.page i) i (r.off i) (r.len i)) (fun _ u' => Filled r s (i + 1) u')
      ⟨fun _ u' => u'.dkHdr = none, fun _ _ => True⟩ u := by
  simp only [feedPage, wp_bind, wp_onErr]
  refine wp_segmentGetPage (fun hlive htype => ?_) (fun _ _ => trivial) (fun _ => ?_) fun _ => ?_
  · rw [h.obj] at hlive htype
    rw [h.darray]
    exact hs _ hlive htype
  · exact diskReset_hdr (fun _ _ => trivial) u
  refine wp_mono (pagetreeGetPage_taken _ _ _ _) (fun a z hz => ?_)
    fun _ z _ => diskReset_hdr (fun _ _ => trivial) _
  refine wp_need.mpr ⟨fun p ha => ?_, fun _ => trivial⟩
  subst ha
  rw [wp_increfHw, Nat.mul_div_cancel p (by decide : 0 < pgsize)]
  refine wp_mono (pagetreeIncrefHw_recounted z.2 p) (fun _ m hm => ?_) fun _ _ => False.elim
  have hz' : z.1.page (r.page i) = some p ∧ (∀ k ≠ r.page i, z.1.page k =
      (u.machine.forest.tree (sgPages r.sg)).page k) ∧ ∀ x, pins z.2 x = pins u.mem x := by
    rcases hz with ⟨hp, -, hsame, hdrawn⟩ | ⟨-, q, hq, hp, hsame, htaken⟩
    · exact ⟨(hsame _).trans hp.symm, fun k _ => hsame k,
        fun x => congrArg Nat.cast (hdrawn.pins x)⟩
    · exact ⟨hp.trans hq.symm, hsame, fun x => congrArg Nat.cast (htaken.pins x)⟩
  obtain ⟨hpage, hpages, hpins⟩ := hz'
  have hle := Has.le hr hi
  refine ⟨h.obj, h.darray, fun j hj => ?_, fun j hj => ?_, fun j hj => ?_, fun x => ?_⟩
  · rcases Nat.lt_succ_iff_lt_or_eq.mp hj with hlt | rfl
    · exact h.has j hlt
    · exact hi
  · rcases Nat.lt_succ_iff_lt_or_eq.mp hj with hlt | rfl
    · obtain ⟨q, hq, hiov⟩ := h.piece j hlt
      have hne : r.page j ≠ r.page i := fun he => hlt.ne (page_inj (by omega) hle he)
      refine ⟨q, ?_, ?_⟩
      · simp [Disk.setIov, Disk.withMem, Disk.withTree, Forest.withTree, hpages _ hne, hq]
      · simp [Disk.setIov, Disk.withMem, Disk.withTree, hlt.ne, hiov]
    · refine ⟨p, ?_, ?_⟩
      · simp [Disk.setIov, Disk.withMem, Disk.withTree, Forest.withTree, hpage]
      · simp [Disk.setIov]
  · have hne : j ≠ i := by omega
    simp only [Disk.setIov, Disk.withMem, Disk.withTree, update_of_ne hne]
    exact h.rest j (by omega)
  · obtain ⟨c, hc, hx⟩ := h.pins x
    have hone : [p].count x ≤ 1 := List.count_le_length
    refine ⟨c + [p].count x, by omega, ?_⟩
    show pins m x = _
    rw [(pinned hm.2.1 x).2, hpins, hx, Nat.cast_add, add_assoc]

/-- What `disk_feed` hands to the driver: all pieces, and the header. -/
def Handed (r : Request) (s v : Disk) : Prop :=
  ∃ u, Filled r s r.iovCnt u ∧ r.before r.iovCnt = r.count ∧
    v.machine.forest.tree = u.machine.forest.tree ∧
    v.dkIov = (u.setBase diskFeedmax (some r.hdr)).dkIov ∧
    ∀ x, pins v.mem x = pins u.mem x + [r.hdr / pgsize].count x

lemma diskFeed_handed (hs : s.Paged) (hr : ¬ r.Invalid) :
    wp (diskFeed r) (fun _ v => Handed r s v)
      ⟨fun _ v => v.dkHdr = none ∨ Handed r s v, fun _ _ => True⟩ s := by
  have h := feedIov_all (fun i u hi h => filled_step hs hr h hi)
    (⟨rfl, rfl, nofun, nofun, fun _ _ => rfl, fun _ => ⟨0, le_rfl, by simp⟩⟩ : Filled r s 0 s)
  simp only [diskFeed, if_neg hr, wp_rules, wp_increfHw]
  refine wp_mono h (fun _ u hu => ?_) fun _ _ => .inl
  obtain ⟨hend, hfilled⟩ := hu
  refine wp_mono (pagetreeIncrefHw_recounted u.mem _) (fun _ m hm => ?_) fun _ _ => False.elim
  have hv : Handed r s ((u.setBase diskFeedmax (some r.hdr)).withMem m) :=
    ⟨u, hfilled, hend, rfl, rfl, fun x => (pinned hm.2.1 x).2⟩
  split
  · exact hv
  · exact .inr hv

/-! ### The entries -/

lemma Filled.bytes (h : Filled r s n u) :
    (List.range n).flatMap (fun j => (u.dkIov j).bytes) =
      (List.range (r.before n)).map (r.byteAt u) := by
  have hall : ∀ i ≤ n, (List.range i).flatMap (fun j => (u.dkIov j).bytes) =
      (List.range (r.before i)).map (r.byteAt u) := by
    intro i
    induction i with
    | zero => simp [Request.before]
    | succ i ih =>
      intro hi
      obtain ⟨p, hp, hiov⟩ := h.piece i hi
      rw [List.range_succ, List.flatMap_append, ih (by omega), before_succ, List.range_add,
        List.map_append]
      simp only [List.flatMap_singleton, Kiovec.bytes, hiov, List.map_map]
      congr 1
      refine List.map_congr_left fun c hc => ?_
      obtain ⟨hpage, hoff⟩ := place (h.has i hi) (List.mem_range.mp hc)
      simp [Request.byteAt, hpage, hoff, hp, Nat.add_assoc]
  exact hall n le_rfl

lemma iovCnt_le_iff (h : ∀ j < n, r.Has j) (hend : r.before n = r.count) :
    n ≤ diskFeedmax ↔ r.start % pgsize + r.count ≤ diskReqmax := by
  have hlt : r.start % 4096 < 4096 := Nat.mod_lt _ (by decide)
  have h16 := h 16
  simp only [Request.Has, Request.before, diskFeedmax, diskReqmax, pgsize] at *
  omega

lemma Handed.reset (hidle : ∀ i ≤ diskFeedmax, (s.dkIov i).iovBase = none) (h : Handed r s u)
    (hn : r.iovCnt ≤ diskFeedmax) :
    wp diskReset (fun _ t => (∀ j ≤ diskFeedmax, (t.dkIov j).iovBase = none) ∧
      ∀ x, pins t.mem x = pins u.mem x + [r.hdr / pgsize].count x - (u.pages r.iovCnt).count x)
      .mayStop u := by
  obtain ⟨v, hv, -, -, hiov, -⟩ := h
  have hhdr : u.dkHdr = some r.hdr := by simp [Disk.dkHdr, hiov, Disk.setBase]
  simp only [diskReset, resetHdr, wp_rules, hhdr, wp_increfHw]
  refine wp_mono (pagetreeIncrefHw_recounted u.mem _) (fun _ m hm => ?_) fun _ _ => False.elim
  have hlen : (u.pages r.iovCnt).length = r.iovCnt := by simp [Disk.pages]
  have hholds : ((u.withMem m).setBase diskFeedmax none).Holds 0 (u.pages r.iovCnt) := by
    refine ⟨by simp, fun j _ hj => ?_⟩
    simp only [Disk.setBase, Disk.withMem, Disk.pages, hiov, update_apply]
    rcases Nat.lt_or_ge j r.iovCnt with hlt | hge
    · obtain ⟨p, -, hp⟩ := hv.piece j hlt
      have hne : j ≠ diskFeedmax := by omega
      simp [hne, hp, hlt]
    · split_ifs
      · simp [hge]
      · simp [hge, hv.rest j hge, hidle j hj]
  refine wp_post (resetIov_spec _ _ 0 _ (by omega) (by omega) hholds) fun _ t ht =>
    ⟨ht.idle, fun x => ?_⟩
  rw [ht.pins, ← (pinned hm.2.1 x).2]
  rfl

/-- **A request is cut exactly just if its pieces are in 16 pages.** -/
theorem diskFeed_cuts_iff {r : Request} {s : Disk}
    (hidle : ∀ i ≤ diskFeedmax, (s.dkIov i).iovBase = none) (hs : s.Paged)
    (hfeed : (diskFeed r s).1 = .ok ()) :
    Cuts r (diskFeed r s).2 ↔ r.start % pgsize + r.count ≤ diskReqmax := by
  have hr : ¬ r.Invalid := fun h => by simp [diskFeed, if_pos h, raise] at hfeed
  have hu := wp_ok (diskFeed_handed hs hr) (Prod.ext hfeed rfl)
  set u := (diskFeed r s).2
  obtain ⟨v, hv, hend, htree, hiov, -⟩ := id hu
  rw [← iovCnt_le_iff hv.has hend]
  refine ⟨Cuts.index, fun hle => ?_⟩
  have hsame : ∀ j < r.iovCnt, u.dkIov j = v.dkIov j := fun j hj => by
    rw [hiov]
    exact update_of_ne (by omega) _ _
  refine ⟨hle, fun j hj => ?_, ?_, hu.reset hidle hle⟩
  · obtain ⟨p, -, hp⟩ := hv.piece j hj
    have hpos := len_pos (hv.has j hj)
    have hlt := off_lt r j
    refine ⟨by simp [hsame j hj, hp, hpos.ne'], p * pgsize + r.off j, by rw [hsame j hj, hp], ?_⟩
    simp only [hsame j hj, hp, Nat.mul_add_mod_self_right, Nat.mod_eq_of_lt hlt, Request.len]
    omega
  · have hat : r.byteAt u = r.byteAt v := by
      funext c
      rw [Request.byteAt, Request.byteAt, htree]
    rw [hat, ← hend, ← hv.bytes]
    exact List.flatMap_congr fun j hj => by rw [hsame j (List.mem_range.mp hj)]

/-- A segment of 17 pages. The header is in the first one, and the others are not there yet. -/
def manyPages : Disk where
  machine := { bareMachine 32 1 0 with
    obj := update (fun _ => {}) 0 { live := true, koRef := 1 }
    darray := update (fun _ => {}) (sgPages 0) { daPp := 1, daEsz := pgsize, daNent := 17 }
    forest := { (bareMachine 32 1 0).forest with
      tree := fun _ => { pagetreeInit true 0 with
        ptDirect := update (fun _ => {}) 0 ⟨some 32, pageExcl⟩ }
      mem := { bootMemory 32 with
        info := fun p => { piRef := if p = 32 then 1 else 0, piFreepage := decide (p < 32) } } } }

lemma manyPages_paged : manyPages.Paged := fun sg hlive _ => by
  by_cases hsg : sg = 0
  · rw [hsg]
    rfl
  · simp only [manyPages, update_of_ne hsg] at hlive
    cases hlive

/-- 16 sectors, from the fifth on, behind a header. -/
def threePages : Request := { beyondEnd with hdr := 32 * 4096, count := 8192, address := 5 * 512 }

/-- They are cut into three pieces. -/
theorem diskFeed_cuts_threePages :
    threePages.iovCnt = 3 ∧ (diskFeed threePages manyPages).1 = .ok () ∧
      Cuts threePages (diskFeed threePages manyPages).2 := by
  have hok : (diskFeed threePages manyPages).1 = .ok () := by decide +kernel
  exact ⟨by decide +kernel, hok,
    (diskFeed_cuts_iff (fun _ _ => rfl) manyPages_paged hok).mpr (by decide)⟩

def longest : Request := { beyondEnd with hdr := 32 * 4096, count := diskReqmax }

/-- **64 kilobytes behind a header are in 17 pages**, one more than the array has room for. -/
theorem diskFeed_seventeen :
    (diskFeed longest manyPages).1 = .ok () ∧ ¬ Cuts longest (diskFeed longest manyPages).2 :=
  ⟨by decide +kernel, fun h => absurd h.index (by decide +kernel)⟩

end Corey.Dev
