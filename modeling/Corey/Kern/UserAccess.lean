import Corey.Kern.Fill

/-!
Checking a range of user memory (`check_user_access` in `arch/amd64/pmap.c`).

The range is rounded to pages in 64-bit arithmetic, and each page is looked up in the pagemap or
faulted in. The lookup walks every pagemap as if it were a root. In the pagemap of an interior
tree it comes to pages of user data and reads them as tables.
-/

namespace Corey.Kern

open Corey.Comp Corey.Mem

variable {s s' : Machine} {a : Kobj} {va ptr nbytes req fuel : ℕ}

/-! ### The check -/

/-- `PTE_U` and `PTE_W` of an entry that has `PTE_P`. -/
structure PteBits where
  user : Bool
  write : Bool

def Pte.bits (e : Pte) : PteBits := { user := true, write := e.write }

/-- The lowest byte of an entry in a page that is read as a table. -/
def entByte (b : Page) (i : ℕ) : ℕ := if h : 8 * i < pgsize then (b ⟨8 * i, h⟩).toNat else 0

/-- A page of user data read as a table of level 1. An entry with `PTE_PS` ends the walk, and any
other that has `PTE_P` leads anywhere. -/
def lookupData (p : Ppn) (va : ℕ) : KM (Option PteBits) := do
  let s ← state
  let w := entByte (s.mem.bytes p) (pdx 1 va)
  if w.testBit 7 then
    pure (if w.testBit 0 then some { user := w.testBit 2, write := w.testBit 1 } else none)
  else if w.testBit 0 then halt .gone
  else pure none

/-- The walk of `page_lookup` in the tables of an interior pagemap. -/
def lookupInner (t : PmTable 1) (va : ℕ) : KM (Option PteBits) :=
  match ((t (pdx 3 va)).sub (pdx 2 va)).pte? with
  | none => pure none
  | some e =>
    match e.src with
    | .page _ _ => lookupData e.page va
    | .root _ => halt .badType

/-- `page_lookup`; a tree without a pagemap has no entries. -/
def pageLookup (a : Kobj) (va : ℕ) : KM (Option PteBits) := do
  let o ← derefAs .addressTree a
  match o.tree.atPgmap with
  | none => pure none
  | some pm => do
    require (va < ulim)
    if pm.int then lookupInner pm.inner va
    else
      match pm.linkAt va with
      | none => pure ((pm.root.lookup va).map Pte.bits)
      | some b => do
        let o ← derefAs .addressTree b
        let pb ← need .panic o.tree.atPgmap
        if pb.int = false then halt .badType
        else pure ((pb.inner.lookup va).map Pte.bits)

/-- `(*ptep & pte_flags) == pte_flags` -/
def PteBits.passes (reqflags : ℕ) (f : PteBits) : Bool :=
  f.user && (!hasFlags reqflags segmapWrite || f.write)

/-- One page of `check_user_access`. -/
def checkPage (fuel : ℕ) (a : Kobj) (va reqflags : ℕ) : KM Unit := do
  if ulim ≤ va then raise .inval
  else do
    let f ← pageLookup a va
    if f.any (PteBits.passes reqflags) then pure () else atPagefault fuel a va reqflags

def checkUserAccess (fuel : ℕ) (a : Kobj) (ptr nbytes reqflags : ℕ) : KM Unit := do
  let _ ← derefAs .addressTree a
  if nbytes = 0 then pure ()
  else do
    let first := rounddown ptr pgsize
    let last := roundup ((ptr + nbytes) % word64) pgsize
    if last ≤ first then raise .inval
    else
      loop (fun i => checkPage fuel a (first + i * pgsize) reqflags) 0 ((last - first) / pgsize)

/-! ### What it finds -/

/-- An entry that allows writing if that is asked for. -/
def Pte.Writes (req : ℕ) (e : Pte) : Prop := hasFlags req segmapWrite = true → e.write = true

lemma pageLookup_quiet (a : Kobj) (va : ℕ) (s : Machine) :
    wp (pageLookup a va) (fun _ t => t = s) .any s := by
  have hdata : ∀ p, wp (lookupData p va) (fun _ t => t = s) .any s := fun p => by
    simp only [lookupData, wp_rules, wp_halt, implies_true, and_true]
  have hinner : ∀ t : PmTable 1, wp (lookupInner t va) (fun _ t => t = s) .any s := by
    intro t
    rw [lookupInner]
    cases ((t (pdx 3 va)).sub (pdx 2 va)).pte? with
    | none => exact rfl
    | some e =>
      dsimp only
      cases e.src with
      | page sg n => exact hdata e.page
      | root b => trivial
  simp only [pageLookup, wp_bind, wp_derefAs, implies_true, and_true]
  intro _ _
  cases (s.obj a).tree.atPgmap with
  | none => exact rfl
  | some pm =>
    simp only [wp_rules, implies_true, and_true]
    refine fun _ => ⟨fun _ => hinner _, fun _ => ?_⟩
    cases pm.linkAt va with
    | none => exact rfl
    | some b =>
      simp only [wp_rules, wp_derefAs, wp_halt, implies_true, and_true]

lemma pageLookup_root (ha : s.IsRoot a) :
    wp (pageLookup a va) (fun f _ => f = (s.pteAt a va).map Pte.bits) .any s := by
  rw [ha.pteAt]
  obtain ⟨pm, hpm, hint⟩ := ha
  simp only [pageLookup, wp_bind, wp_derefAs, implies_true, and_true]
  intro _ _
  simp only [hpm, wp_bind, wp_require, implies_true, and_true]
  intro _
  rw [if_neg (by simp [hint])]
  cases hlink : pm.linkAt va with
  | none =>
    rw [entAt_eq hpm hlink, Pagemap.lookup_root hint]
    exact rfl
  | some b =>
    simp only [wp_bind, wp_derefAs, wp_need, wp_ite, wp_halt, wp_pure,
      implies_true, and_true, true_and]
    intro _ _ pb hpb hb
    have hb' : pb.int = true := by simpa using hb
    rw [entAt_linked hpm hlink hpb hb', Pagemap.lookup_int hb']

lemma passes_bits {e : Pte} (h : e.bits.passes req = true) : e.Writes req := by
  intro hw
  simpa [PteBits.passes, Pte.bits, hw] using h

/-- The state after some pages have been checked: entries have been added only. -/
structure Checked (req : ℕ) (a : Kobj) (s t : Machine) : Prop where
  segments : SegmentsOnly t a
  grows : Grows (Pte.Writes req) s t

lemma checkPage_ok (hseg : SegmentsOnly s a) (hva : va % pgsize = 0) :
    wp (checkPage fuel a va req) (fun _ t => va < ulim ∧ Checked req a s t ∧
      (s.IsRoot a → ∃ e, e.Writes req ∧ t.pteAt a va = some e)) .any s := by
  simp only [checkPage, wp_ite, wp_raise, implies_true, true_and]
  intro hlim
  have hlook : wp (pageLookup a va) (fun f t => t = s ∧
      (s.IsRoot a → f = (s.pteAt a va).map Pte.bits)) .any s := by
    by_cases ha : s.IsRoot a
    · exact wp_weaken (wp_and (pageLookup_quiet a va s) (pageLookup_root ha))
        fun _ _ h => ⟨h.1, fun _ => h.2⟩
    · exact wp_post (pageLookup_quiet a va s) fun _ _ h => ⟨h, fun h' => (ha h').elim⟩
  rw [wp_bind]
  refine wp_post hlook fun f t ht => ?_
  obtain ⟨ht, hf⟩ := ht
  subst ht
  rw [wp_ite]
  refine ⟨fun hpass => ?_, fun _ => ?_⟩
  · refine ⟨by omega, ⟨hseg, .of_trees (.refl _)⟩, fun ha => ?_⟩
    obtain ⟨x, hx, hpass⟩ := (Option.any_eq_true _ _).mp hpass
    obtain ⟨e, he, rfl⟩ := Option.map_eq_some_iff.mp ((hf ha).symm.trans hx)
    exact ⟨e, passes_bits hpass, he⟩
  · refine wp_post (atPagefault_segments hseg) fun _ u ht => ?_
    obtain ⟨hsegu, hg, e, he, hent⟩ := ht
    have hround : rounddown va pgsize = va := by simp [rounddown, hva]
    have hg' : Grows (Pte.Writes req) t u := hg.mono fun _ h => h.1
    refine ⟨by omega, ⟨hsegu, hg'⟩, fun ha => ⟨e, he.1, ?_⟩⟩
    rw [(hg'.isRoot ha).pteAt, ← hround]
    exact hent

lemma checkPages_ok {first : ℕ} (hseg : SegmentsOnly s a) (hfirst : first % pgsize = 0) (k : ℕ) :
    wp (loop (fun i => checkPage fuel a (first + i * pgsize) req) 0 k)
      (fun _ t => Checked req a s t ∧ ∀ i < k, first + i * pgsize < ulim ∧
        (s.IsRoot a → ∃ e, e.Writes req ∧ t.pteAt a (first + i * pgsize) = some e))
      .any s := by
  -- the pages before the current one have entries
  refine wp_post (wp_loop (fun j t => Checked req a s t ∧ ∀ i < j, first + i * pgsize < ulim ∧
    (s.IsRoot a → ∃ e, e.Writes req ∧ t.pteAt a (first + i * pgsize) = some e)) k 0 s
    ⟨⟨hseg, .of_trees (.refl s)⟩, fun i hi => absurd hi (Nat.not_lt_zero i)⟩ ?_) fun _ t ht => ?_
  · intro j t _ _ ⟨ht, hdone⟩
    have hva : (first + j * pgsize) % pgsize = 0 := by
      rw [Nat.add_mul_mod_self_right]
      exact hfirst
    refine wp_post (checkPage_ok ht.segments hva) fun _ u ⟨hlim, hu, hpte⟩ => ?_
    refine ⟨⟨hu.segments, ht.grows.trans hu.grows⟩, fun i hi => ?_⟩
    rcases Nat.lt_succ_iff_lt_or_eq.mp hi with hlt | rfl
    · refine ⟨(hdone i hlt).1, fun ha => ?_⟩
      obtain ⟨e, he, hent⟩ := (hdone i hlt).2 ha
      exact hu.grows.pteAt he hent
    · exact ⟨hlim, fun ha => hpte (ht.grows.isRoot ha)⟩
  · exact ⟨ht.1, fun i hi => ht.2 i (by omega)⟩

/-- What a check that succeeds should mean: the range does not wrap, and every page of it is
user memory that is mapped, for writing if that is asked for. -/
structure Accessible (s : Machine) (a : Kobj) (ptr nbytes reqflags : ℕ) : Prop where
  noWrap : ptr + nbytes < word64
  pages : ∀ n, ptr / pgsize ≤ n → n * pgsize < ptr + nbytes → (n + 1) * pgsize ≤ ulim ∧
    ∃ e, s.pteAt a (n * pgsize) = some e ∧ (hasFlags reqflags segmapWrite = true → e.write = true)

lemma range_rounded (hptr : ptr < word64) (hband : ptr % pgsize + nbytes ≤ word64)
    (hlt : ¬ roundup ((ptr + nbytes) % word64) pgsize ≤ rounddown ptr pgsize) :
    ptr + nbytes < word64 ∧ ∀ n, n * pgsize < ptr + nbytes →
      n * pgsize < roundup ((ptr + nbytes) % word64) pgsize := by
  simp only [roundup, rounddown, pgsize, word64] at *
  refine ⟨by omega, fun n hn => by omega⟩

lemma page_of_range {n last : ℕ} (hn : ptr / pgsize ≤ n)
    (hlast : n * pgsize < rounddown last pgsize) :
    ∃ i < (rounddown last pgsize - rounddown ptr pgsize) / pgsize,
      rounddown ptr pgsize + i * pgsize = n * pgsize := by
  refine ⟨n - ptr / pgsize, ?_, ?_⟩
  · simp only [rounddown, pgsize] at *
    omega
  · simp only [rounddown, pgsize] at *
    omega

lemma checkUserAccess_ok (hseg : SegmentsOnly s a) (hpos : 0 < nbytes) :
    wp (checkUserAccess fuel a ptr nbytes req) (fun _ t =>
      ¬ roundup ((ptr + nbytes) % word64) pgsize ≤ rounddown ptr pgsize ∧ Checked req a s t ∧
      ∀ i < (roundup ((ptr + nbytes) % word64) pgsize - rounddown ptr pgsize) / pgsize,
        rounddown ptr pgsize + i * pgsize < ulim ∧ (s.IsRoot a →
          ∃ e, e.Writes req ∧ t.pteAt a (rounddown ptr pgsize + i * pgsize) = some e))
      .any s := by
  simp only [checkUserAccess, wp_rules, wp_derefAs, implies_true, and_true, true_and]
  refine fun _ _ => ⟨fun h0 => by omega, fun _ hlt => ?_⟩
  have hfirst : rounddown ptr pgsize % pgsize = 0 := by
    simp only [rounddown, pgsize]
    omega
  exact wp_post (checkPages_ok hseg hfirst _) fun _ t ht => ⟨hlt, ht⟩

/-- **A checked range is accessible** unless its length, counted from the start of its first
page, passes 2^64. Then the end of the range wraps to a page that may be the first one, and only
what is before that is checked. In a tree with the pagemap of an interior one the entries that
are found or made are not those the processor uses. -/
theorem checked_range_accessible_iff (hseg : SegmentsOnly s a) (hptr : ptr < word64)
    (hpos : 0 < nbytes) (h : checkUserAccess fuel a ptr nbytes req s = (.ok (), s')) :
    Accessible s' a ptr nbytes req ↔ s.IsRoot a ∧ ptr % pgsize + nbytes ≤ word64 := by
  obtain ⟨hlt, hchecked, hpages⟩ := wp_ok (checkUserAccess_ok hseg hpos) h
  constructor
  · intro hacc
    have hdiv : ptr / pgsize * pgsize ≤ ptr := Nat.div_mul_le_self ptr pgsize
    obtain ⟨-, e, he, -⟩ := hacc.pages (ptr / pgsize) le_rfl (by omega)
    refine ⟨hchecked.grows.isRoot_iff.mp (isRoot_of_pteAt he), ?_⟩
    have hwrap := hacc.noWrap
    have hmod : ptr % pgsize ≤ ptr := Nat.mod_le ptr pgsize
    omega
  · rintro ⟨ha, hband⟩
    obtain ⟨hwrap, hlast⟩ := range_rounded hptr hband hlt
    refine ⟨hwrap, fun n hn hnlt => ?_⟩
    obtain ⟨i, hi, hva⟩ := page_of_range hn (hlast n hnlt)
    obtain ⟨hlim, hpte⟩ := hpages i hi
    rw [hva] at hlim hpte
    obtain ⟨e, he, hent⟩ := hpte ha
    refine ⟨?_, e, hent, he⟩
    simp only [pgsize, ulim] at hlim ⊢
    omega

/-- The tree of the boot processor maps a page of a segment. -/
def mappedRun : List Event := [
  ⟨0, .syscall (.segmentAlloc 1 4096 0)⟩,
  ⟨0, .syscall (.atSetSlot ⟨1, 3⟩
    { type := addressMappingSegment, object := ⟨1, 4⟩, flags := 6, va := 0x1000, numPages := 1 })⟩]

/-- What the checks of the boot processor's tree look at, after a check of a range. -/
def afterCheck (ptr nbytes : ℕ) (s : Machine) : Bool × Option ℕ × ℕ × ℕ × Option Bool :=
  (((checkUserAccess 1 2 ptr nbytes 6).result s).isSome, (s.atRange 2).uam,
    (s.darray (atUaddrmap 2)).daNent, ((s.obj 2).tree.uaddrmap 0).type,
    (s.obj 2).tree.atPgmap.map Pagemap.int)

lemma of_afterCheck (h : afterCheck ptr nbytes s = (true, none, 1, 1, some false)) :
    SegmentsOnly s 2 ∧ s.IsRoot 2 ∧ ∃ s', checkUserAccess 1 2 ptr nbytes 6 s = (.ok (), s') := by
  simp only [afterCheck, Prod.mk.injEq] at h
  obtain ⟨hok, huam, hnent, htype, hint⟩ := h
  obtain ⟨⟨_, s'⟩, hr⟩ := Option.isSome_iff_exists.mp hok
  obtain ⟨pm, hpm, hint⟩ := Option.map_eq_some_iff.mp hint
  refine ⟨?_, ⟨pm, hpm, hint⟩, s', result_eq_some.mp hr⟩
  rintro i (hi | hi)
  · have hi0 : i = 0 := by omega
    rw [hi0, htype]
    decide
  · rw [huam] at hi
    exact nomatch hi

/-- A buffer in the page that is mapped. -/
theorem checked_range_accessible_iff_buffer :
    ∃ s s', kernel.Reachable s ∧ SegmentsOnly s 2 ∧
      checkUserAccess 1 2 0x1008 16 6 s = (.ok (), s') ∧
      (Accessible s' 2 0x1008 16 6 ↔ s.IsRoot 2 ∧ 0x1008 % pgsize + 16 ≤ word64) := by
  obtain ⟨s, hs, hx⟩ := reachable_of_bootRun 40 1 mappedRun
    (P := (afterCheck 0x1008 16 · = (true, none, 1, 1, some false))) (by decide +kernel)
  obtain ⟨hseg, -, s', hok⟩ := of_afterCheck hx
  exact ⟨s, s', hs, hseg, hok, checked_range_accessible_iff hseg (by decide) (by decide) hok⟩

/-- A range of almost 2^64 bytes passes although only its first page is mapped. -/
theorem check_passes_wrapped_range :
    ∃ s s', kernel.Reachable s ∧ SegmentsOnly s 2 ∧ s.IsRoot 2 ∧
      checkUserAccess 1 2 0x1008 (2 ^ 64 - 4) 6 s = (.ok (), s') ∧
      ¬ Accessible s' 2 0x1008 (2 ^ 64 - 4) 6 := by
  obtain ⟨s, hs, hx⟩ := reachable_of_bootRun 40 1 mappedRun
    (P := (afterCheck 0x1008 (2 ^ 64 - 4) · = (true, none, 1, 1, some false))) (by decide +kernel)
  obtain ⟨hseg, hroot, s', hok⟩ := of_afterCheck hx
  exact ⟨s, s', hs, hseg, hroot, hok, fun hacc => absurd hacc.noWrap (by decide)⟩

end Corey.Kern
