import Corey.Kern.Eager
import Corey.Kern.PageArrays

/-!
Runs of segments.

The machine has only segments, and nothing is mapped. A step is one operation on a segment or
one access the way the fault path makes it. The state is compared with the one in which every
copy is made at once.
-/

namespace Corey.Kern

open Function Corey.Comp Corey.Mem Corey.Cow Finset Machine

def sharedMode (onRead : Bool) : PageSharingMode := if onRead then pageSharedCor else pageSharedCow

def SegmentOp.body : SegmentOp → KM Answer
  | .alloc pid => do
    let sg ← segmentAlloc pid
    pure (.segment sg)
  | .setNbytes sg numBytes => do
    segmentSetNbytes sg numBytes
    pure .done
  | .copy sg onRead pid => do
    let dst ← segmentCopy sg (sharedMode onRead) pid
    pure (.segment dst)
  | .free sg => do
    segmentGcCb sg
    kobjectFree sg
    pure .done
  | .load sg npage offset => do
    let p ← segmentFaultPage sg npage pageSharedCor
    let s ← state
    pure (.byte (s.mem.bytes p offset))
  | .store sg npage offset x => do
    let p ← segmentFaultPage sg npage pageSharedCow
    onForest (Forest.onMem (change fun m =>
      m.setBytes p (update (m.bytes p) offset x)))
    pure .done

def AllocFails (op : SegmentOp) (s : Machine) : Prop :=
  s.mem.failures < (op.body s).2.mem.failures

/-- The operation is one the kernel stops at for a reason of its own: it has run out of object
ids, or it shrinks a segment that is larger than a page tree. -/
def Overreaches (op : SegmentOp) (s : Machine) : Prop :=
  match op with
  | .alloc _ | .copy _ _ _ => 2 ^ 56 ≤ s.idCounter s.mem.cpu + 1
  | .setNbytes sg numBytes =>
    roundup numBytes pgsize / pgsize < (s.darray (sgPages sg)).daNent ∧
      treePages < (s.darray (sgPages sg)).daNent
  | _ => False

/-- An operation is answered if it comes to an end and no allocation has failed in it. -/
def segments : Process Machine SegmentOp Answer where
  step op s :=
    match op.body s with
    | (.ok a, s') => if s'.mem.failures = s.mem.failures then some (a, s') else none
    | (.err e, s') => if s'.mem.failures = s.mem.failures then some (.error e, s') else none
    | (.stop _, _) => none

/-- A machine that has just been booted: no object has been allocated. -/
structure Machine.Fresh (U : Finset Ppn) (s : Machine) : Prop where
  boot : s.mem.Boot U
  hand : s.forest.hand = []
  born : s.born = 0
  dead : ∀ p, (s.obj p).live = false

/-- The machine presents what the model does. `L` is the set of the page trees in use; each
belongs to a live segment, whose object fills a page. -/
structure Presents (U : Finset Ppn) (L : Finset TreeId) (s : Machine) (r : Eager) : Prop where
  shows : Shows U L (s.darray, s.forest) (fun t => r.npages t.1) fun t => r.bytes t.1
  tree : ∀ t, t ∈ L ↔ ∃ sg, t = sgPages sg ∧ s.live sg = true
  live : ∀ sg, r.live sg = s.live sg
  born : r.born = s.born
  unborn : ∀ sg, s.born ≤ sg → s.live sg = false
  unmapped : ∀ sg, s.live sg = true → (s.obj sg).koType = .segment ∧ (s.obj sg).sg.sgMapList = []
  page : ∀ sg, s.live sg = true → (s.obj sg).page ∈ s.forest.hand
  pages : ∀ sg sg', s.live sg = true → s.live sg' = true →
    (s.obj sg).page = (s.obj sg').page → sg = sg'
  count : s.forest.hand.length = L.card

variable {U : Finset Ppn} {L : Finset TreeId} {s s' : Machine} {r r' : Eager} {sg : Kobj}
  {X : Exits Errno Machine} {o : Kobject} {op : SegmentOp} {npage : ℕ}

lemma sgPages_inj {sg sg' : Kobj} : sgPages sg = sgPages sg' ↔ sg = sg' := by
  simp [sgPages]

lemma update_sgPages {α : Type} (f : Kobj → α) (sg sg' : Kobj) (x : α) :
    update (fun t : TreeId => f t.1) (sgPages sg) x (sgPages sg') = update f sg x sg' := by
  by_cases h : sg' = sg
  · subst h
    rw [update_self, update_self]
  · rw [update_of_ne (by rwa [Ne, sgPages_inj]), update_of_ne h]
    rfl

namespace Presents

lemma mem (h : Presents U L s r) : sgPages sg ∈ L ↔ s.live sg = true := by
  rw [h.tree]
  exact ⟨fun ⟨_, heq, hl⟩ => by rwa [sgPages_inj.mp heq], fun hl => ⟨sg, rfl, hl⟩⟩

lemma withArrays {w : (TreeId → Darray) × Forest TreeId} {n : TreeId → ℕ} {b : TreeId → ℕ → Page}
    (h : Presents U L s r) (r' : Eager) (hw : Shows U L w n b)
    (hcalm : Calm (s.darray, s.forest) w)
    (hn : ∀ sg, sgPages sg ∈ L → r'.npages sg = n (sgPages sg))
    (hb : ∀ sg, sgPages sg ∈ L → ∀ k < n (sgPages sg), r'.bytes sg k = b (sgPages sg) k)
    (hlive : r'.live = r.live) (hborn : r'.born = r.born) :
    Presents U L { s with darray := w.1, forest := w.2 } r' where
  shows := by
    refine hw.congr (fun t ht => ?_) fun t ht => ?_
    · obtain ⟨sg, rfl, -⟩ := (h.tree t).mp ht
      exact hn sg ht
    · obtain ⟨sg, rfl, -⟩ := (h.tree t).mp ht
      exact hb sg ht
  tree := h.tree
  live sg := by
    rw [hlive]
    exact h.live sg
  born := hborn.trans h.born
  unborn := h.unborn
  unmapped := h.unmapped
  page sg hl := hcalm.hand ▸ h.page sg hl
  pages := h.pages
  count := (congrArg List.length hcalm.hand).trans h.count

end Presents

lemma wp_invalidate_unmapped {c : Prop} [Decidable c] {Q : Unit → Machine → Prop}
    (hlive : s.live sg = true) (htype : (s.obj sg).koType = .segment)
    (hlist : (s.obj sg).sg.sgMapList = []) (h : Q () s) :
    wp (if c then segmentInvalidate sg else pure ()) Q X s := by
  rw [live] at hlive
  rw [wp_ite]
  simp [segmentInvalidate, segmentRemoveCb, amlInvalidate, amlLoop, amlGetList, Kobject.mapList,
    hlive, htype, hlist, forEach, h]

/-- An operation has failed to allocate since `s`. -/
def Starved (s s' : Machine) : Prop := s.mem.failures < s'.mem.failures

/-! ### The operations -/

lemma Presents.alloc (h : Presents U L s r)
    (hobj : s'.obj = update s.obj s.born o) (hborn : s'.born = s.born + 1)
    (ho : o.live = true ∧ o.koType = .segment ∧ o.sg.sgMapList = [])
    (hpage : o.page ∉ s.forest.hand) (hhand : s'.forest.hand = o.page :: s.forest.hand)
    (hshow : Shows U (insert (sgPages s.born) L) (s'.darray, s'.forest)
      (update (fun t => r.npages t.1) (sgPages s.born) 0) fun t => r.bytes t.1) :
    Presents U (insert (sgPages s.born) L) s' r.alloc := by
  have hself : s'.obj s.born = o := by rw [hobj, update_self]
  have hother : ∀ sg, sg ≠ s.born → s'.obj sg = s.obj sg := fun sg hne => by
    rw [hobj, update_of_ne hne]
  have hcases : ∀ sg, s'.live sg = true → sg = s.born ∨ sg ≠ s.born ∧ s.live sg = true := by
    intro sg hl
    by_cases hsg : sg = s.born
    · exact Or.inl hsg
    · rw [Machine.live, hother sg hsg] at hl
      exact Or.inr ⟨hsg, hl⟩
  have hold : ∀ sg, s.live sg = true → s'.live sg = true ∧ sg ≠ s.born := by
    intro sg hl
    have hne : sg ≠ s.born := by
      rintro rfl
      rw [h.unborn _ (Nat.le_refl _)] at hl
      cases hl
    rw [Machine.live, hother sg hne]
    exact ⟨hl, hne⟩
  have hnew : s'.live s.born = true := by rw [Machine.live, hself, ho.1]
  have htree : ∀ t, t ∈ insert (sgPages s.born) L ↔ ∃ sg, t = sgPages sg ∧ s'.live sg = true := by
    intro t
    rw [Finset.mem_insert, h.tree]
    constructor
    · rintro (rfl | ⟨sg, rfl, hl⟩)
      · exact ⟨_, rfl, hnew⟩
      · exact ⟨sg, rfl, (hold sg hl).1⟩
    · rintro ⟨sg, rfl, hl⟩
      exact (hcases sg hl).imp (fun hsg => by rw [hsg]) fun hsg => ⟨sg, rfl, hsg.2⟩
  refine ⟨hshow.congr (fun t ht => ?_) fun _ _ _ _ => rfl, htree, fun sg => ?_,
    by rw [hborn, Eager.alloc, h.born], fun sg hsg => ?_, fun sg hl => ?_, fun sg hl => ?_,
    fun sg sg' hl hl' heq => ?_, ?_⟩
  · obtain ⟨sg, rfl, -⟩ := (htree t).mp ht
    rw [update_sgPages, ← h.born]
    rfl
  · show update r.live r.born true sg = _
    rw [h.born]
    by_cases hsg : sg = s.born
    · rw [hsg, update_self, hnew]
    · rw [update_of_ne hsg, h.live, Machine.live, Machine.live, hother sg hsg]
  · rw [Machine.live, hother sg (by omega)]
    exact h.unborn sg (by omega)
  · rcases hcases sg hl with rfl | ⟨hne, hl⟩
    · rw [hself]
      exact ho.2
    · rw [hother sg hne]
      exact h.unmapped sg hl
  · rw [hhand]
    rcases hcases sg hl with rfl | ⟨hne, hl⟩
    · simp [hself]
    · rw [hother sg hne]
      exact List.mem_cons_of_mem _ (h.page sg hl)
  · have hfresh : ∀ sg, s.live sg = true → o.page ≠ (s.obj sg).page := fun sg hl heq =>
      hpage (heq ▸ h.page sg hl)
    rcases hcases sg hl with rfl | ⟨hne, hl⟩ <;> rcases hcases sg' hl' with rfl | ⟨hne', hl'⟩
    · rfl
    · rw [hself, hother sg' hne'] at heq
      exact absurd heq (hfresh sg' hl')
    · rw [hself, hother sg hne] at heq
      exact absurd heq.symm (hfresh sg hl)
    · rw [hother sg hne, hother sg' hne'] at heq
      exact h.pages sg sg' hl hl' heq
  · rw [hhand, List.length_cons, h.count, Finset.card_insert_of_notMem]
    rw [h.mem, h.unborn _ (Nat.le_refl _)]
    simp

lemma segmentAlloc_spec (h : Presents U L s r) (pid : ℕ) :
    wp (segmentAlloc pid)
      (fun sg s' => sg = r.born ∧ Presents U (insert (sgPages sg) L) s' r.alloc ∧
        s'.mem.failures = s.mem.failures ∧ s'.forest.tree (sgPages sg) = pagetreeInit true pid)
      ⟨fun _ s' => Starved s s', fun _ _ => 2 ^ 56 ≤ s.idCounter s.mem.cpu + 1⟩ s := by
  have hnotin : sgPages s.born ∉ L := by
    rw [h.mem, h.unborn _ (Nat.le_refl _)]
    simp
  simp only [segmentAlloc, kobjectAlloc, idAlloc, bear, Machine.bear, Machine.collect, modSegment,
    wp_rules, wp_onForest, wp_archCpu, Machine.modObj, wp_onArrays]
  refine wp_mono (Forest.takePage_spec h.shows.sound pid) (fun p f hf => ?_) fun _ _ hf => hf.2.2
  obtain ⟨hf, hfail⟩ := hf
  refine ⟨fun _ => ?_, fun hid => ?_⟩
  · refine wp_of_never (darrayInit_spec (h.shows.handed hf) hnotin pid)
      fun _ w hw => ?_
    obtain ⟨hshow, hcalm, hinit⟩ := hw
    refine ⟨h.born.symm, h.alloc (update_idem ..) rfl ?_ ?_ ?_ hshow,
      hcalm.failures.trans hfail, hinit⟩
    · simp
    · simpa using hf.fresh.2
    · simpa using hcalm.hand.trans hf.hand
  · rw [not_lt] at hid
    exact hf.kept.cpu ▸ hid

/-- The model gives the answer, and the state it is in then is presented. -/
def Agrees (U : Finset Ppn) (op : SegmentOp) (r : Eager) (s : Machine) (a : Answer)
    (s' : Machine) : Prop :=
  s'.mem.failures = s.mem.failures ∧ ∃ L r', Eager.step op r = some (a, r') ∧ Presents U L s' r'

/-- What may happen instead of an answer. -/
@[reducible] def instead (U : Finset Ppn) (op : SegmentOp) (r : Eager) (s : Machine) :
    Exits Errno Machine where
  err e s' := Starved s s' ∨ Agrees U op r s (.error e) s'
  stop _ s' := Starved s s' ∨ Overreaches op s ∨ Eager.step op r = none

lemma wp_segment {Q : Kobject → Machine → Prop} (h : Presents U L s r)
    (hnone : r.live sg = false → Eager.step op r = none)
    (hQ : r.live sg = true → s.live sg = true → Q (s.obj sg) s) :
    wp (derefAs .segment sg) Q (instead U op r s) s := by
  rw [wp_derefAs]
  cases hl : s.live sg with
  | true =>
    have htype := (h.unmapped sg hl).1
    rw [live] at hl
    exact ⟨fun _ _ => hQ ((h.live sg).trans hl) hl, fun _ hne => absurd htype hne,
      fun hf => absurd (hl.symm.trans hf) (by decide)⟩
  | false =>
    rw [live] at hl
    exact ⟨fun ht => absurd (hl.symm.trans ht) (by decide),
      fun ht => absurd (hl.symm.trans ht) (by decide),
      fun _ => Or.inr (Or.inr (hnone ((h.live sg).trans hl)))⟩

lemma roundup_div_lt (numBytes : ℕ) : roundup numBytes pgsize / pgsize < word64 := by
  have hround : roundup numBytes pgsize < word64 :=
    Nat.lt_of_le_of_lt (Nat.sub_le _ _) (Nat.mod_lt _ (by decide))
  exact Nat.lt_of_le_of_lt (Nat.div_le_self _ _) hround

lemma setNbytes_spec (h : Presents U L s r) (numBytes : ℕ) :
    wp (SegmentOp.setNbytes sg numBytes).body (Agrees U (.setNbytes sg numBytes) r s)
      (instead U (.setNbytes sg numBytes) r s) s := by
  have hsmall := roundup_div_lt numBytes
  simp only [SegmentOp.body, segmentSetNbytes, segmentGetNpage, wp_bind, wp_state, wp_pure]
  refine wp_segment h (fun hl => by simp [Eager.step, hl]) fun hrl hl => ?_
  have hmem : sgPages sg ∈ L := h.mem.mpr hl
  have hnent : (s.darray (sgPages sg)).daNent = r.npages sg := (h.shows.head _ hmem).2.2
  have hstep : Eager.step (.setNbytes sg numBytes) r =
      some (.done, r.resize sg (roundup numBytes pgsize / pgsize)) := by
    rw [Eager.step, if_pos hrl]
  generalize hm : roundup numBytes pgsize / pgsize = m at *
  refine wp_invalidate_unmapped hl (h.unmapped sg hl).1 (h.unmapped sg hl).2 ?_
  rw [wp_ite, wp_onArrays, hnent]
  refine ⟨fun _ => ?_, fun heq => ?_⟩
  · refine wp_imp (darraySetNent_spec h.shows hmem hsmall false) (fun _ w hw => ?_)
      (fun _ _ => False.elim) fun _ w hw => ?_
    · refine ⟨hw.2.failures, L, _, hstep, h.withArrays _ hw.1 hw.2 (fun sg' _ => ?_)
        (fun sg' _ k _ => ?_) rfl rfl⟩
      · rw [update_sgPages]
        rfl
      · exact (congrFun (update_sgPages r.bytes sg sg' _) k).symm
    · refine hw.imp id fun hover => Or.inl ?_
      rw [Overreaches, hnent, hm]
      exact hover
  · rw [not_not] at heq
    refine ⟨rfl, L, _, hstep, h.withArrays _ h.shows ⟨rfl, rfl⟩ (fun sg' _ => ?_)
      (fun sg' _ k hk => ?_) rfl rfl⟩
    · show update r.npages sg m sg' = r.npages sg'
      rw [← heq, update_eq_self]
    · show update r.bytes sg _ sg' k = r.bytes sg' k
      by_cases hsg : sg' = sg
      · subst hsg
        rw [update_self]
        exact if_pos hk
      · rw [update_of_ne hsg]

lemma copy_spec (hU : U.card ≤ maxPages) (h : Presents U L s r) (onRead : Bool) (pid : ℕ) :
    wp (SegmentOp.copy sg onRead pid).body (Agrees U (.copy sg onRead pid) r s)
      (instead U (.copy sg onRead pid) r s) s := by
  have hmode : sharedMode onRead = pageSharedCow ∨ sharedMode onRead = pageSharedCor := by
    cases onRead <;> simp [sharedMode]
  simp only [SegmentOp.body, segmentCopy, wp_bind, wp_pure]
  refine wp_segment h (fun hl => by simp [Eager.step, hl]) fun hrl hl => ?_
  rw [wp_ite]
  refine ⟨fun hno => absurd hmode (by tauto), fun _ => ?_⟩
  simp only [wp_bind, wp_pure]
  refine wp_imp (segmentAlloc_spec h pid) (fun dst s1 h1 => ?_) (fun _ _ => Or.inl)
    fun _ _ hid => Or.inr (Or.inl hid)
  obtain ⟨rfl, h1, hfail, hinit⟩ := h1
  have hne : sg ≠ r.born := by
    rintro rfl
    rw [h.born, h.unborn _ (Nat.le_refl _)] at hl
    cases hl
  have hl1 : s1.live sg = true := by
    rw [← h1.live, Eager.alloc]
    simpa [hne] using hrl
  have hun := h1.unmapped sg hl1
  have hsrc := h1.mem.mpr hl1
  have hnpages : r.alloc.npages sg = r.npages sg := update_of_ne hne _ _
  refine wp_invalidate_unmapped hl1 hun.1 hun.2 ?_
  rw [wp_onArrays]
  refine wp_mono (darrayCopy_spec h1.shows hsrc (mem_insert_self _ _)
    (by rwa [Ne, sgPages_inj]) hinit (update_self ..) hmode ?_ hU) (fun _ w hw => ?_)
    fun e w hw => ?_
  · have hcount := h1.count
    rw [show directEntries = 3 from rfl, show width 0 = 170 from rfl]
    simp only [hcount]
    omega
  · obtain ⟨hpos, hcalm, hshow⟩ := hw
    have hstep : Eager.step (.copy sg onRead pid) r = some (.segment r.born, r.duplicate sg) := by
      rw [Eager.step, if_pos hrl, if_neg (by rw [← hnpages]; exact Nat.ne_of_gt hpos)]
    refine ⟨hcalm.failures.trans hfail, _, _, hstep, h1.withArrays _ hshow hcalm
      (fun sg' _ => ?_) (fun sg' _ k _ => ?_) rfl rfl⟩
    · rw [update_sgPages]
      show update r.npages r.born (r.npages sg) sg' =
        update (update r.npages r.born 0) r.born (r.alloc.npages sg) sg'
      rw [hnpages, update_idem]
    · exact (congrFun (update_sgPages r.bytes r.born sg' _) k).symm
  · rcases hw with hf | ⟨rfl, hzero, rfl⟩
    · refine Or.inl ?_
      rw [Failed] at hf
      rw [Starved, ← hfail]
      exact hf
    · refine Or.inr ⟨hfail, _, _, ?_, h1⟩
      rw [Eager.step, if_pos hrl, if_pos (by rw [← hnpages]; exact hzero)]

lemma Presents.free (h : Presents U L s r) (hl : s.live sg = true)
    (hobj : s'.obj = update s.obj sg o) (hborn : s'.born = s.born)
    (ho : o.live = false) (hhand : s'.forest.hand = s.forest.hand.erase (s.obj sg).page)
    (hshow : Shows U (L.erase (sgPages sg)) (s'.darray, s'.forest) (fun t => r.npages t.1)
      fun t => r.bytes t.1) : Presents U (L.erase (sgPages sg)) s' (r.free sg) := by
  have hself : s'.live sg = false := by rw [Machine.live, hobj, update_self, ho]
  have hother : ∀ sg', sg' ≠ sg → s'.obj sg' = s.obj sg' := fun sg' hne => by
    rw [hobj, update_of_ne hne]
  have hcases : ∀ sg', s'.live sg' = true → sg' ≠ sg ∧ s.live sg' = true := by
    intro sg' hl'
    have hne : sg' ≠ sg := by
      rintro rfl
      rw [hself] at hl'
      cases hl'
    rw [Machine.live, hother sg' hne] at hl'
    exact ⟨hne, hl'⟩
  refine ⟨hshow, fun t => ?_, fun sg' => ?_, h.born.trans hborn.symm, fun sg' hsg' => ?_,
    fun sg' hl' => ?_, fun sg' hl' => ?_, fun a a' ha ha' heq => ?_, ?_⟩
  · rw [Finset.mem_erase, h.tree]
    constructor
    · rintro ⟨hne, sg', rfl, hl'⟩
      rw [Ne, sgPages_inj] at hne
      exact ⟨sg', rfl, by rw [Machine.live, hother sg' hne]; exact hl'⟩
    · rintro ⟨sg', rfl, hl'⟩
      obtain ⟨hne, hl'⟩ := hcases sg' hl'
      exact ⟨by rwa [Ne, sgPages_inj], sg', rfl, hl'⟩
  · show update r.live sg false sg' = _
    by_cases hsg : sg' = sg
    · rw [hsg, update_self, hself]
    · rw [update_of_ne hsg, h.live, Machine.live, Machine.live, hother sg' hsg]
  · have hne : sg' ≠ sg := by
      rintro rfl
      rw [h.unborn _ (hborn ▸ hsg')] at hl
      cases hl
    rw [Machine.live, hother sg' hne]
    exact h.unborn sg' (hborn ▸ hsg')
  · obtain ⟨hne, hl'⟩ := hcases sg' hl'
    rw [hother sg' hne]
    exact h.unmapped sg' hl'
  · obtain ⟨hne, hl'⟩ := hcases sg' hl'
    rw [hother sg' hne, hhand]
    exact (List.mem_erase_of_ne fun heq => hne (h.pages sg' sg hl' hl heq)).mpr (h.page sg' hl')
  · obtain ⟨hne, ha⟩ := hcases a ha
    obtain ⟨hne', ha'⟩ := hcases a' ha'
    rw [hother a hne, hother a' hne'] at heq
    exact h.pages a a' ha ha' heq
  · rw [hhand, List.length_erase_of_mem (h.page sg hl), h.count,
      Finset.card_erase_of_mem (h.mem.mpr hl)]

lemma free_spec (h : Presents U L s r) :
    wp (SegmentOp.free sg).body (Agrees U (.free sg) r s) (instead U (.free sg) r s) s := by
  simp only [SegmentOp.body, segmentGcCb, kobjectFree, wp_rules]
  refine wp_segment h (fun hl => by simp [Eager.step, hl]) fun hrl hl => ?_
  have hmem : sgPages sg ∈ L := h.mem.mpr hl
  rw [wp_onArrays]
  refine wp_of_never (darrayFree_spec h.shows hmem) fun _ w hw => ?_
  obtain ⟨hshow, hcalm⟩ := hw
  simp only [wp_getObj, wp_onForest]
  refine wp_of_never (Forest.givePage_spec hshow.sound (hcalm.hand ▸ h.page sg hl)) fun _ f hf => ?_
  obtain ⟨hf, hfail⟩ := hf
  refine ⟨hfail.trans hcalm.failures, L.erase (sgPages sg), r.free sg,
    by rw [Eager.step, if_pos hrl], h.free hl rfl rfl rfl (hf.hand.trans ?_) (hshow.handed hf)⟩
  exact congrArg (List.erase · _) hcalm.hand

/-! ### Access -/

lemma wp_segmentFaultPage {mode : PageSharingMode} {Q : Ppn → Machine → Prop} :
    wp (segmentFaultPage sg npage mode) Q X s ↔
      wp (derefAs .segment sg) (fun _ t => wp (onArrays (faultPage (sgPages sg) npage mode)) Q X t)
        X s := by
  simp only [segmentFaultPage, segmentGetPage, faultPage, wp_rules, wp_onArrays, wp_onForest,
    wp_shared]

lemma refused_eq {e : Errno} (sg : Kobj) (h : e = .inval ∧ r.npages sg ≤ npage ∨
    e = .noSpace ∧ npage < r.npages sg ∧ treePages ≤ npage) : r.refused sg npage = some e := by
  rcases h with ⟨rfl, hle⟩ | ⟨rfl, hlt, hle⟩
  · rw [Eager.refused, if_pos hle]
  · rw [Eager.refused, if_neg (by omega), if_pos hle]

lemma refused_eq_none {p : EntPtr} (sg : Kobj) (hlt : npage < r.npages sg)
    (hp : locate npage = some p) : r.refused sg npage = none := by
  have : ¬ treePages ≤ npage := fun hle => by simp [locate_eq_none.mpr hle] at hp
  rw [Eager.refused, if_neg (by omega), if_neg this]

lemma load_spec (h : Presents U L s r) (npage : ℕ) (offset : Fin pgsize) :
    wp (SegmentOp.load sg npage offset).body (Agrees U (.load sg npage offset) r s)
      (instead U (.load sg npage offset) r s) s := by
  simp only [SegmentOp.body, wp_rules, wp_segmentFaultPage]
  refine wp_segment h (fun hl => by simp [Eager.step, hl]) fun hrl hl => ?_
  rw [wp_onArrays]
  refine wp_imp (faultPage_spec h.shows (h.mem.mpr hl) (by decide) npage) (fun q w hw => ?_)
    (fun e w hw => ?_) fun _ _ hw => Or.inl hw
  · obtain ⟨hshow, hcalm, hlt, hbytes, p, hp, -⟩ := hw
    refine ⟨hcalm.failures, L, r, ?_, h.withArrays _ hshow hcalm (fun _ _ => rfl)
      (fun _ _ _ _ => rfl) rfl rfl⟩
    rw [Eager.step, if_pos hrl, refused_eq_none sg hlt hp]
    exact congrArg (fun x => some (Answer.byte x, r)) (congrFun hbytes.symm offset)
  · rcases hw with hw | ⟨hw, hcase⟩
    · exact .inl hw
    · refine .inr ⟨hw ▸ rfl, L, r, ?_, hw ▸ h⟩
      rw [Eager.step, if_pos hrl, refused_eq sg hcase]

lemma store_spec (h : Presents U L s r) (npage : ℕ) (offset : Fin pgsize) (x : UInt8) :
    wp (SegmentOp.store sg npage offset x).body (Agrees U (.store sg npage offset x) r s)
      (instead U (.store sg npage offset x) r s) s := by
  simp only [SegmentOp.body, wp_rules, wp_segmentFaultPage]
  refine wp_segment h (fun hl => by simp [Eager.step, hl]) fun hrl hl => ?_
  have hmem := h.mem.mpr hl
  rw [wp_onArrays]
  refine wp_imp (faultPage_spec h.shows hmem (by decide) npage) (fun q w hw => ?_)
    (fun e w hw => ?_) fun _ _ hw => Or.inl hw
  · obtain ⟨hshow, hcalm, hlt, hbytes, p, hp, hpage, hown⟩ := hw
    simp only [wp_onForest, Forest.onMem, wp_zoom, wp_change]
    refine ⟨hcalm.failures, L, r.write sg npage offset x, ?_, h.withArrays _
      (hshow.store hmem hp hpage (hown rfl) (update (w.2.mem.bytes q) offset x))
      ⟨hcalm.hand, hcalm.failures⟩ (fun _ _ => rfl)
      (fun sg' _ k _ => ?_) rfl rfl⟩
    · rw [Eager.step, if_pos hrl, refused_eq_none sg hlt hp]
    · rw [hbytes]
      exact (congrFun (update_sgPages r.bytes sg sg' _) k).symm
  · rcases hw with hw | ⟨hw, hcase⟩
    · exact .inl hw
    · refine .inr ⟨hw ▸ rfl, L, r, ?_, hw ▸ h⟩
      rw [Eager.step, if_pos hrl, refused_eq sg hcase]

/-! ### Runs -/

lemma body_spec (hU : U.card ≤ maxPages) (h : Presents U L s r) :
    ∀ op : SegmentOp, wp op.body (Agrees U op r s) (instead U op r s) s
  | .alloc pid => by
    simp only [SegmentOp.body, wp_rules]
    refine wp_imp (segmentAlloc_spec h pid) (fun sg s1 h1 => ?_) (fun _ _ => Or.inl)
      fun _ _ hid => Or.inr (Or.inl hid)
    obtain ⟨rfl, h1, hfail, -⟩ := h1
    exact ⟨hfail, _, _, rfl, h1⟩
  | .setNbytes _ numBytes => setNbytes_spec h numBytes
  | .copy _ onRead pid => copy_spec hU h onRead pid
  | .free _ => free_spec h
  | .load _ npage offset => load_spec h npage offset
  | .store _ npage offset x => store_spec h npage offset x

/-- One operation: the machine gives no answer because an allocation fails or because it
overreaches, or neither has an answer, or both have the same one and go on together. -/
lemma step_agrees (hU : U.card ≤ maxPages) (h : Presents U L s r) (op : SegmentOp) :
    segments.step op s = none ∧ (AllocFails op s ∨ Overreaches op s ∨ Eager.step op r = none) ∨
      ∃ a s' L' r', segments.step op s = some (a, s') ∧ Eager.step op r = some (a, r') ∧
        Presents U L' s' r' := by
  have hspec := body_spec hU h op
  simp only [segments, AllocFails]
  simp only [wp] at hspec
  rcases hb : op.body s with ⟨a | e | w, s'⟩ <;> simp only [hb] at hspec ⊢
  · obtain ⟨hfail, L', r', hr, hp⟩ := hspec
    exact Or.inr ⟨a, s', L', r', if_pos hfail, hr, hp⟩
  · rcases hspec with hst | ⟨hfail, L', r', hr, hp⟩
    · exact Or.inl ⟨if_neg (Nat.ne_of_gt hst), Or.inl hst⟩
    · exact Or.inr ⟨.error e, s', L', r', if_pos hfail, hr, hp⟩
  · exact Or.inl ⟨trivial, hspec⟩

lemma Machine.Fresh.presents (h : s.Fresh U) : Presents U ∅ s Eager.init := by
  have hsound : s.forest.Sound U (∅ : Finset TreeId) :=
    Forest.Sound.init ⟨h.boot, h.hand, fun t ht => absurd ht (notMem_empty t)⟩
  have hnone : ∀ c, (s.forest.sheet ((∅ : Finset TreeId) : Set TreeId)).page c = none := fun c =>
    if_neg fun hc => absurd hc.1 (by simp)
  refine ⟨⟨hsound, h.boot.noPins, ⟨fun h1 => ?_, fun hs => absurd hs.1.1 (by simp)⟩,
    fun c q hq => ?_, ?_, ?_, ?_, ?_, ?_⟩, fun t => ?_, fun sg => (h.dead sg).symm, h.born.symm,
    fun sg _ => h.dead sg, fun sg hl => ?_, fun sg hl => ?_, fun sg _ hl => ?_, ?_⟩
  · exact absurd ((hnone _).symm.trans h1) (by simp)
  · exact absurd ((hnone _).symm.trans hq) (by simp)
  all_goals simp [live, h.dead, h.hand] at *

lemma step_presents (hU : U.card ≤ maxPages) {a : Answer}
    (h : ∃ L, Presents U L s r) (hstep : segments.step op s = some (a, s')) :
    ∃ r', eager.step op r = some (a, r') ∧ ∃ L, Presents U L s' r' := by
  obtain ⟨L, hp⟩ := h
  rcases step_agrees hU hp op with ⟨hnone, -⟩ | ⟨a', s1, L', r', hs, hr, hp'⟩
  · simp [hnone] at hstep
  · cases hs.symm.trans hstep
    exact ⟨r', hr, L', hp'⟩

lemma trace_presents (hU : U.card ≤ maxPages) (hs : s.Fresh U) {ops : List SegmentOp}
    {answers : List Answer} (h : segments.trace ops s = some (answers, s')) :
    ∃ r, eager.trace ops Eager.init = some (answers, r) ∧ ∃ L, Presents U L s' r :=
  Process.trace_simulation (fun _ _ _ _ _ => step_presents hU) ⟨∅, hs.presents⟩ h

/-- **Segments that share pages cannot be told from segments that do not.** On a machine whose
memory is not larger than what the kernel maps at boot, take any operations on segments and any
accesses that the machine answers from boot on. The model in which every copy is made at once
gives the same answers. To whatever is asked next both give the same answer, or both give none,
unless `page_alloc` fails in it or the kernel stops at a limit of its own. -/
theorem segments_answer_as_eager_copies {U : Finset Ppn} (hU : U.card ≤ maxPages) {s s' : Machine}
    (hs : s.Fresh U) {ops : List SegmentOp} {answers : List Answer}
    (h : segments.trace ops s = some (answers, s')) :
    ∃ r, eager.trace ops Eager.init = some (answers, r) ∧
      ∀ op, (segments.step op s').map Prod.fst = (eager.step op r).map Prod.fst ∨
        AllocFails op s' ∨ Overreaches op s' := by
  obtain ⟨r, hr, L, hp⟩ := trace_presents hU hs h
  refine ⟨r, hr, fun op => ?_⟩
  rcases step_agrees hU hp op with ⟨hnone, hcase⟩ | ⟨a, t1, L', r', ht, hr', -⟩
  · rcases hcase with hf | ho | hno
    · exact Or.inr (Or.inl hf)
    · exact Or.inr (Or.inr ho)
    · exact Or.inl (by rw [hnone, show eager.step op r = none from hno]; rfl)
  · exact Or.inl (by rw [ht, show eager.step op r = some (a, r') from hr']; rfl)

lemma bareMachine_fresh (k ncpu ndev : ℕ) : (bareMachine k ncpu ndev).Fresh (range k) :=
  ⟨bootMemory_boot k, rfl, rfl, fun _ => rfl⟩

/-- Two copies of one page: one copy is written to, then the source is. -/
def copyRun (offset : Fin pgsize) : List SegmentOp :=
  [.alloc 0, .setNbytes 0 4096, .store 0 0 offset 1, .copy 0 false 0, .copy 0 true 0,
    .store 1 0 offset 2, .store 0 0 offset 3, .load 0 0 offset, .load 1 0 offset,
    .load 2 0 offset]

def copyRunAnswers : List Answer :=
  [.segment 0, .done, .done, .segment 1, .segment 2, .done, .done, .byte 3, .byte 2, .byte 1]

theorem segments_answer_as_eager_copies_copyRun :
    ∃ s', segments.trace (copyRun ⟨7, by decide⟩) (bareMachine 8 1 0) = some (copyRunAnswers, s') ∧
      ∃ r, eager.trace (copyRun ⟨7, by decide⟩) Eager.init = some (copyRunAnswers, r) ∧
        ∀ op, (segments.step op s').map Prod.fst = (eager.step op r).map Prod.fst ∨
          AllocFails op s' ∨ Overreaches op s' := by
  have hcard : (range 8).card ≤ maxPages := by decide
  have hanswers : (segments.trace (copyRun ⟨7, by decide⟩) (bareMachine 8 1 0)).map Prod.fst =
      some copyRunAnswers := by decide +kernel
  obtain ⟨⟨os, s'⟩, htrace, rfl⟩ := Option.map_eq_some_iff.mp hanswers
  exact ⟨s', htrace, segments_answer_as_eager_copies hcard (bareMachine_fresh 8 1 0) htrace⟩

end Corey.Kern
