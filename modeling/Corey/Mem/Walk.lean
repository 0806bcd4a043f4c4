import Corey.Mem.Shape
import Mathlib.Algebra.BigOperators.Intervals

/-!
What reading, writing and freeing do to a page tree, to the ledger and to the pages of others.

Every specification is framed by a ledger `R` of the uses outside the part that is worked on:
the memory is balanced against the part and `R` before and after, and what the users in `R`
see does not change.
-/

namespace Corey.Mem

open Function Corey.Comp Pagetree

variable {U : Finset Ppn} {m m' : Memory} {L L' R : Ledger} {p q : Ppn} {l : ℕ} {s : Slot l}
  {e : PagetreeEntry} {mode : PageSharingMode} {page : Option Ppn}

/-! ### Walking down -/

/-- A slot has got blocks at most: its entries are what they were. -/
structure Slot.Same {l : ℕ} (s s' : Slot l) : Prop where
  entry : ∀ n < span l, s'.entry n = s.entry n
  ents : ∀ p, s'.ledger (.ent p) = s.ledger (.ent p)

lemma Slot.Same.refl (s : Slot l) : s.Same s := ⟨fun _ _ => rfl, fun _ => rfl⟩

lemma zeroSlot_entry : ∀ (l n : ℕ), (zeroSlot l).entry n = {}
  | 0, _ => rfl
  | _ + 1, _ => rfl

lemma Slot.same_zeroBlock (l : ℕ) (p : Ppn) : Slot.Same .null (zeroBlock l p) :=
  ⟨fun _ _ => zeroSlot_entry l _, fun q => by simp [one_apply]⟩

lemma Slot.Same.trans {s' s'' : Slot l} (h : s.Same s') (h' : s'.Same s'') : s.Same s'' :=
  ⟨fun n hn => (h'.entry n hn).trans (h.entry n hn), fun p => (h'.ents p).trans (h.ents p)⟩

lemma Slot.Same.below {i : ℕ} {f : ℕ → Slot l} (hi : i < width l)
    (h : (f i).Same s) : Slot.Same (.block p f) (.block p (update f i s)) := by
  refine ⟨fun n _ => ?_, fun q => ?_⟩
  · by_cases hn : n / span l = i
    · subst hn
      simpa [Slot.entry] using h.entry _ (Nat.mod_lt _ (span_pos l))
    · simp [Slot.entry, hn]
  · obtain ⟨rest, h1, h2⟩ := below_partOf p f hi
    have h2' : (Slot.block p (update f i s)).ledger = s.ledger + rest := h2 s
    rw [h1, h2']
    simp only [Pi.add_apply, h.ents]
    rfl

lemma Balanced.newBlock (h : Balanced U m (L + one (.held p))) :
    Balanced U (m.setBytes p zeroPage) ((zeroBlock l p).ledger + L) ∧
      Kept L m (m.setBytes p zeroPage) := by
  refine ⟨(h.setBytes p zeroPage).relabel (fun q => ?_) (fun q => ?_), Kept.setBytes h.held_alone.1⟩
  · simp [one_apply]
  · simp [one_apply]
    omega

/-- From slot `s` and memory `m` only blocks have been added. -/
structure Walked {l : ℕ} (U : Finset Ppn) (R : Ledger) (s : Slot l) (m : Memory)
    (t : Slot l × Memory) : Prop where
  balanced : Balanced U t.2 (t.1.ledger + R)
  kept : Kept (s.ledger + R) m t.2
  same : s.Same t.1

lemma Walked.refl (h : Balanced U m (s.ledger + R)) : Walked U R s m (s, m) :=
  ⟨h, Kept.refl _ _, Slot.Same.refl _⟩

lemma Walked.trans {t t' : Slot l × Memory} (h : Walked U R s m t)
    (h' : Walked U R t.1 t.2 t') : Walked U R s m t' :=
  ⟨h'.balanced, h.kept.trans (h'.kept.mono fun p hp => by
    simpa only [Pi.add_apply, h.same.ents] using hp), h.same.trans h'.same⟩

lemma ensureBlock_spec {s : Slot (l + 1)} (h : Balanced U m (s.ledger + R)) (pid : ℕ) :
    wp (ensureBlock pid)
      (fun _ t => (∃ p f, t.1 = .block p f) ∧ Walked U R s m t ∧ t.2.failures = m.failures)
      ⟨fun e t => e = .noMem ∧ Walked U R s m t ∧ m.failures < t.2.failures, fun _ _ => False⟩
      (s, m) := by
  simp only [ensureBlock, wp_rules, wp_shared]
  cases s with
  | block p f => exact ⟨nofun, fun _ => ⟨⟨p, f, rfl⟩, Walked.refl h, trivial⟩⟩
  | null =>
    rw [ledger_null, zero_add] at h
    refine ⟨fun _ => wp_mono (pageAlloc_spec h pid) (fun p m1 h1 => ?_) (fun e m1 h1 => ?_),
      fun hno => (hno rfl).elim⟩
    · obtain ⟨hb, hk, -, hf⟩ := h1
      obtain ⟨hb', hk'⟩ := hb.newBlock (l := l)
      exact ⟨⟨p, _, rfl⟩, ⟨hb', by simpa using hk.trans hk', Slot.same_zeroBlock l p⟩, hf⟩
    · obtain ⟨he, hb, hk, hf⟩ := h1
      exact ⟨he, ⟨by simpa using hb, by simpa using hk, Slot.Same.refl _⟩, hf⟩

lemma pagetreeGetEntpIndirect_spec (pid : ℕ) : ∀ (l n : ℕ) (s : Slot l) (m : Memory)
    (R : Ledger), n < span l → Balanced U m (s.ledger + R) →
    wp (pagetreeGetEntpIndirect pid l n)
      (fun _ t => Walked U R s m t ∧ t.1.Reached n ∧ t.2.failures = m.failures)
      ⟨fun e t => e = .noMem ∧ Walked U R s m t ∧ m.failures < t.2.failures, fun _ _ => False⟩
      (s, m)
  | 0, n, .ent e, m, R, _, h => ⟨Walked.refl h, trivial, rfl⟩
  | l + 1, n, s, m, R, hn, h => by
    have hi := index_lt hn
    simp only [pagetreeGetEntpIndirect, wp_rules, wp_focus]
    refine wp_post (ensureBlock_spec h pid) fun _ t ht => ?_
    obtain ⟨s1, m1⟩ := t
    obtain ⟨⟨p, f, rfl⟩, hwalk, hf1⟩ := ht
    obtain ⟨rest, h1, h2⟩ := below_partOf p f hi
    have hsub : (Slot.block p f).ledger + R = (f (n / span l)).ledger + (rest + R) := by
      rw [h1, add_assoc]
      rfl
    have hup : ∀ t, Walked U (rest + R) (f (n / span l)) m1 t →
        Walked U R s m ((below (n / span l)).set t.1 (.block p f), t.2) := fun t ht =>
      hwalk.trans ⟨by rw [h2, add_assoc]; exact ht.balanced, hsub ▸ ht.kept, ht.same.below hi⟩
    have ih := pagetreeGetEntpIndirect_spec pid l (n % span l) (f (n / span l)) m1 (rest + R)
      (Nat.mod_lt _ (span_pos l)) (hsub ▸ hwalk.balanced)
    refine ⟨fun _ => ?_, fun hno => hno fun hl => ?_⟩
    · refine wp_mono ih (fun _ t ht => ⟨hup t ht.1, ?_, ht.2.2.trans hf1⟩)
        fun e t ht => ⟨ht.1, hup t ht.2.1, hf1 ▸ ht.2.2⟩
      show Slot.Reached (update f (n / span l) t.1 (n / span l)) _
      rw [update_self]
      exact ht.2.1
    · subst hl
      simpa [span] using hn

lemma Slot.reached_of_page : ∀ {l : ℕ} (s : Slot l) (n : ℕ), (s.entry n).page = some p →
    s.Reached n
  | 0, .ent _, _, _ => trivial
  | _ + 1, .null, _, h => by simp [Slot.entry] at h
  | _ + 1, .block _ f, _, h => Slot.reached_of_page (f _) _ h

lemma pagetreeGetEntpIndirect_reached (pid : ℕ) : ∀ (l n : ℕ) (s : Slot l) (m : Memory),
    n < span l → s.Reached n →
    wp (pagetreeGetEntpIndirect pid l n) (fun _ t => t = (s, m)) .never (s, m)
  | 0, _, _, _, _, _ => rfl
  | l + 1, n, .null, _, _, hr => hr.elim
  | l + 1, n, .block q f, m, hn, hr => by
    have hreq : l = 0 → n < width 0 := by
      rintro rfl
      simpa [span] using hn
    have ih := pagetreeGetEntpIndirect_reached pid l (n % span l) (f (n / span l)) m
      (Nat.mod_lt _ (span_pos l)) hr
    simp only [pagetreeGetEntpIndirect, ensureBlock, wp_rules, wp_focus, Slot.isNull,
      Bool.false_eq_true, false_implies, true_and, not_false_eq_true, true_implies]
    refine ⟨fun _ => wp_of_never ih fun _ t ht => ?_, fun hno => (hno hreq).elim⟩
    subst ht
    simp [below]

/-- The same of a whole tree. -/
structure Pagetree.Same (pt pt' : Pagetree) : Prop where
  get : ∀ p : EntPtr, p.Valid → pt'.get p = pt.get p
  ents : ∀ p, pt'.ledger (.ent p) = pt.ledger (.ent p)
  pid : pt'.pid = pt.pid
  demand : pt'.demand = pt.demand

lemma Pagetree.Same.refl (pt : Pagetree) : pt.Same pt :=
  ⟨fun _ _ => rfl, fun _ => rfl, rfl, rfl⟩

lemma Slot.Same.indirAt {pt : Pagetree} {i : ℕ} {s : Slot (i + 1)} (hi : i < indirectEntries)
    (h : (pt.ptIndir i).Same s) : pt.Same ((indirAt i).set s pt) := by
  refine ⟨fun p hp => ?_, fun q => ?_, rfl, rfl⟩
  · cases p with
    | direct j => rfl
    | indirect j n =>
      by_cases hj : j = i
      · subst hj
        simpa [Pagetree.get, Mem.indirAt] using h.entry n hp.2
      · simp [Pagetree.get, Mem.indirAt, hj]
  · obtain ⟨rest, h1, h2⟩ := indirAt_partOf pt hi
    rw [h1, h2]
    simp only [Pi.add_apply, h.ents]
    rfl

structure TreeWalked (U : Finset Ppn) (R : Ledger) (pt : Pagetree) (m : Memory)
    (t : Pagetree × Memory) : Prop where
  balanced : Balanced U t.2 (t.1.ledger + R)
  kept : Kept (pt.ledger + R) m t.2
  same : pt.Same t.1

/-- Finding an entry changes no entry, and fails only where the tree has no place for the
page or there is no page for a block. -/
lemma pagetreeGetEntp_spec {pt : Pagetree} (h : Balanced U m (pt.ledger + R)) (npage : ℕ) :
    wp (pagetreeGetEntp npage)
      (fun p t => locate npage = some p ∧ TreeWalked U R pt m t ∧ t.1.Reached p ∧
        t.2.failures = m.failures)
      ⟨fun e t => TreeWalked U R pt m t ∧ (e = .noMem ∧ m.failures < t.2.failures ∨
          e = .noSpace ∧ treePages ≤ npage ∧ t = (pt, m)), fun _ _ => False⟩ (pt, m) := by
  have hrefl : TreeWalked U R pt m (pt, m) := ⟨h, Kept.refl _ _, Pagetree.Same.refl _⟩
  rw [pagetreeGetEntp]
  rcases hloc : locate npage with _ | ⟨i⟩ | ⟨i, n⟩
  · exact ⟨hrefl, Or.inr ⟨rfl, locate_eq_none.mp hloc, rfl⟩⟩
  · exact ⟨rfl, hrefl, trivial, rfl⟩
  · have hvalid := locate_valid hloc
    obtain ⟨rest, h1, h2⟩ := indirAt_partOf pt hvalid.1
    have hsub : pt.ledger + R = (pt.ptIndir i).ledger + (rest + R) := by
      rw [h1, add_assoc]
      rfl
    have hup : ∀ t, Walked U (rest + R) (pt.ptIndir i) m t →
        TreeWalked U R pt m ((indirAt i).set t.1 pt, t.2) := fun t ht =>
      ⟨by rw [h2, add_assoc]; exact ht.balanced, hsub ▸ ht.kept, ht.same.indirAt hvalid.1⟩
    simp only [wp_rules, wp_focus]
    refine wp_mono (pagetreeGetEntpIndirect_spec pt.pid (i + 1) n (pt.ptIndir i) m (rest + R)
        hvalid.2 (hsub ▸ h)) (fun _ t ht => ⟨trivial, hup t ht.1, ?_, ht.2.2⟩)
      fun e t ht => ⟨hup t ht.2.1, Or.inl ⟨ht.1, ht.2.2⟩⟩
    show Slot.Reached (update pt.ptIndir i t.1 i) n
    rw [update_self]
    exact ht.2.1

/-! ### One entry -/

@[simp] lemma ledger_none (k : PageSharingMode) :
    PagetreeEntry.ledger { page := none, mode := k } = 0 := rfl

@[simp] lemma ledger_some (p : Ppn) (k : PageSharingMode) :
    PagetreeEntry.ledger { page := some p, mode := k } = one (.ent p) := rfl

lemma ledger_of_page (h : e.page = some p) : e.ledger = one (.ent p) := by
  rw [PagetreeEntry.ledger, h]

lemma ledger_of_null (h : e.page = none) : e.ledger = 0 := by
  rw [PagetreeEntry.ledger, h]

/-- There was no page for a copy, and the entry is as it was. -/
abbrev CopyFails (U : Finset Ppn) (R : Ledger) (e : PagetreeEntry) (m : Memory) (x : Errno)
    (t : PagetreeEntry × Memory) : Prop :=
  x = .noMem ∧ t.1 = e ∧ Balanced U t.2 (e.ledger + R) ∧ Kept (e.ledger + R) m t.2 ∧
    m.failures < t.2.failures

lemma pagetreeCopyPage_spec {old : Ppn} (he : e.page = some old)
    (h : Balanced U m (e.ledger + R)) (hfit : Fits m (e.ledger + R)) (pid : ℕ) :
    wp (pagetreeCopyPage pid)
      (fun _ t => ∃ pp, t.1 = ⟨some pp, pageExcl⟩ ∧ Balanced U t.2 (one (.ent pp) + R) ∧
        Kept R m t.2 ∧ t.2.refs R pp = 0 ∧ t.2.bytes pp = m.bytes old ∧
        (t.2.info pp).piClear = true ∧ t.2.failures = m.failures)
      ⟨CopyFails U R e m, fun _ _ => False⟩ (e, m) := by
  unfold CopyFails
  rw [ledger_of_page he] at h hfit ⊢
  simp only [pagetreeCopyPage, wp_rules, wp_shared, he, memcpy, setClear, pagetreeIncref]
  refine wp_mono (pageAlloc_spec h pid) (fun pp m1 h1 => ?_) fun x m1 h1 => ?_
  · obtain ⟨hb, hk, -, hf⟩ := h1
    refine ⟨fun o ho => ?_, by simp⟩
    cases ho
    obtain ⟨hent, -, -, hhw, hfree⟩ := hb.held_alone
    simp only [Pi.add_apply, one_apply, Use.ent.injEq] at hent
    have hne : old ≠ pp := by rintro rfl; simp at hent
    have hpp : R (.ent pp) = 0 := by omega
    have hbytes : m1.bytes old = m.bytes old := hk.bytes old (by simp [one_apply])
    have hb' := ((hb.setBytes pp (m1.bytes old)).setClear hfree).incref_held
    rw [add_assoc, add_comm] at hb'
    refine wp_of_never (pagetreeDecref_spec hb' ?_) fun _ m' hm' => ?_
    · have := hfit old
      simp only [Memory.refs, Pi.add_apply, one_apply, Use.ent.injEq, if_neg hne, hk.hw,
        setInfo_info, update_of_ne hne, setBytes_info, if_true] at this ⊢
      omega
    · obtain ⟨hb5, hk5, hf5⟩ := hm'
      refine ⟨pp, rfl, by rwa [add_comm], ?_, ?_, ?_, ?_, ?_⟩
      · refine Kept.trans ⟨fun q hq => ?_, fun q hq => ?_, fun q => ?_, ?_, ?_⟩ hk5.of_add_right
        · have : q ≠ pp := by rintro rfl; omega
          simpa [this] using hk.bytes q (by simp; omega)
        · have : q ≠ pp := by rintro rfl; omega
          simpa [this] using hk.clear q (by simp; omega)
        · by_cases hq : q = pp
          · subst hq; simpa using hk.hw q
          · simpa [hq] using hk.hw q
        · exact hk.failures
        · exact hk.cpu
      · simpa [Memory.refs, hpp, hk5.hw] using hhw
      · rw [hk5.bytes pp (by simp [one_apply])]
        simpa using hbytes
      · rw [hk5.clear pp (by simp [one_apply])]
        simp
      · exact hf5.trans hf
  · exact ⟨h1.1, rfl, h1.2.1, h1.2.2.1, h1.2.2.2⟩

/-- `pagetree_get_page` with this mode copies the page of this entry first. -/
def NeedsCopy (e : PagetreeEntry) (mode : PageSharingMode) : Prop :=
  e.mode = pageSharedCor ∨ e.mode = pageSharedCow ∧ mode = pageSharedCow
  deriving Decidable

/-- The three ways to get at the page of an entry: a private copy of a shared page, the page
that is there, a page allocated on demand. -/
inductive Got (demand : Bool) (mode : PageSharingMode) (R : Ledger) (e : PagetreeEntry)
    (m : Memory) : PagetreeEntry × Memory → Prop
  | copied {old pp : Ppn} {m' : Memory} (need : NeedsCopy e mode) (page : e.page = some old)
      (fresh : m'.refs R pp = 0) (bytes : m'.bytes pp = m.bytes old)
      (clear : (m'.info pp).piClear = true) : Got demand mode R e m (⟨some pp, pageExcl⟩, m')
  | kept (need : ¬ NeedsCopy e mode) (page : e.page = none → demand = false) :
      Got demand mode R e m (e, m)
  | demanded {p : Ppn} {m' : Memory} (need : ¬ NeedsCopy e mode) (page : e.page = none)
      (dem : demand = true) (fresh : m'.refs R p = 0) (clear : (m'.info p).piClear = false) :
      Got demand mode R e m (⟨some p, pageExcl⟩, m')

/-- Why `pagetree_get_page` may panic on an entry. -/
def GetPanic (e : PagetreeEntry) (mode : PageSharingMode) (m m' : Memory) : Prop :=
  mode = pageExcl ∧ e.mode ∈ [pageSharedCor, pageSharedCow] ∨
    NeedsCopy e mode ∧ e.page = none ∨ m.failures < m'.failures

lemma wp_breakSharing {pid : ℕ}
    {Q : Unit → PagetreeEntry × Memory → Prop} {X : Exits Errno (PagetreeEntry × Memory)}
    (hcopy : NeedsCopy e mode → wp (pagetreeCopyPage pid) Q X (e, m))
    (hkeep : ¬ NeedsCopy e mode → Q () (e, m))
    (hexcl : mode = pageExcl → e.mode ∈ [pageSharedCor, pageSharedCow] → X.stop .panic (e, m)) :
    wp (breakSharing pid mode) Q X (e, m) := by
  simp only [breakSharing, wp_rules]
  refine ⟨fun hcor => ⟨fun _ => hcopy (.inl hcor), fun hm => hexcl (not_not.mp hm) ?_⟩,
    fun hncor => ⟨fun hcow => ⟨fun _ => ⟨fun hmode => hcopy (.inr ⟨hcow, hmode⟩),
      fun hmode => hkeep ?_⟩, fun hm => hexcl (not_not.mp hm) ?_⟩, fun hncow => hkeep ?_⟩⟩
  · simp [hcor]
  · simp [NeedsCopy, hncor, hmode]
  · simp [hcow]
  · simp [NeedsCopy, hncor, hncow]

lemma breakSharing_spec (h : Balanced U m (e.ledger + R))
    (hfit : Fits m (e.ledger + R)) (pid : ℕ) (demand : Bool) (mode : PageSharingMode) :
    wp (breakSharing pid mode) (fun _ t => Balanced U t.2 (t.1.ledger + R) ∧ Kept R m t.2 ∧
        t.2.failures = m.failures ∧
        (t = (e, m) ∧ ¬ NeedsCopy e mode ∨ t.1.page ≠ none ∧ Got demand mode R e m t))
      ⟨CopyFails U R e m, fun w t => w = .panic ∧ GetPanic e mode m t.2⟩ (e, m) := by
  refine wp_breakSharing (fun hneed => ?_) (fun hno => ⟨h, Kept.refl _ _, rfl, Or.inl ⟨rfl, hno⟩⟩)
    fun hmode he => ⟨rfl, Or.inl ⟨hmode, he⟩⟩
  cases hpage : e.page with
  | some old =>
    refine wp_mono (pagetreeCopyPage_spec hpage h hfit pid) (fun _ t ht => ?_) fun _ _ => id
    obtain ⟨pp, he, hb, hk, hfresh, hbytes, hclear, hf⟩ := ht
    obtain ⟨e', m'⟩ := t
    cases he
    exact ⟨hb, hk, hf, Or.inr ⟨by simp, .copied hneed hpage hfresh hbytes hclear⟩⟩
  | none =>
    simp only [pagetreeCopyPage, wp_rules, wp_shared, hpage]
    refine wp_mono (pageAlloc_spec h pid) (fun pp m1 h1 => ⟨nofun, fun _ => ?_⟩)
      fun x m1 h1 => ⟨h1.1, rfl, h1.2.1, h1.2.2.1, h1.2.2.2⟩
    exact ⟨trivial, Or.inr (Or.inl ⟨hneed, hpage⟩)⟩

lemma demandPage_spec (h : Balanced U m (e.ledger + R)) (pid : ℕ) (demand : Bool) :
    wp (demandPage pid demand) (fun _ t => Balanced U t.2 (t.1.ledger + R) ∧ Kept R m t.2 ∧
        t.2.failures = m.failures ∧
        (t = (e, m) ∧ (e.page = none → demand = false) ∨
          e.page = none ∧ demand = true ∧ ∃ p, t.1 = ⟨some p, pageExcl⟩ ∧ t.2.refs R p = 0 ∧
            (t.2.info p).piClear = false))
      ⟨fun _ _ => False, fun w t => w = .panic ∧ m.failures < t.2.failures⟩ (e, m) := by
  simp only [demandPage, wp_rules]
  refine ⟨fun hd => ?_, fun hd => ?_⟩
  · rw [ledger_of_null hd.1, zero_add] at h
    simp only [wp_attempt, wp_shared]
    refine wp_mono (pageAlloc_spec h pid) (fun p m1 h1 => ?_) fun x m1 h1 => ?_
    · obtain ⟨hb, hk, hclear, hf⟩ := h1
      simp only [wp_rules, wp_shared, pagetreeIncref]
      refine ⟨?_, hk.trans (Kept.setInfo rfl rfl), hf, Or.inr ⟨hd.1, hd.2, p, rfl, ?_, ?_⟩⟩
      · rw [ledger_some, add_comm]
        exact hb.incref_held
      · simpa [Memory.refs, hb.held_alone.1] using hb.held_alone.2.2.2.1
      · simpa using hclear
    · exact ⟨rfl, h1.2.2.2⟩
  · refine ⟨h, Kept.refl _ _, trivial, Or.inl ⟨trivial, fun hnone => ?_⟩⟩
    simpa [hnone] using hd

lemma pagetreeGetEnt_spec (h : Balanced U m (e.ledger + R))
    (hfit : Fits m (e.ledger + R)) (pid : ℕ) (demand : Bool) (mode : PageSharingMode) :
    wp (pagetreeGetEnt pid demand mode)
      (fun r t => r = t.1.page ∧ Balanced U t.2 (t.1.ledger + R) ∧ Kept R m t.2 ∧
        t.2.failures = m.failures ∧ Got demand mode R e m t)
      ⟨CopyFails U R e m, fun w t => w = .panic ∧ GetPanic e mode m t.2⟩ (e, m) := by
  simp only [pagetreeGetEnt, wp_rules]
  refine wp_post (breakSharing_spec h hfit pid demand mode) fun _ t ht => ?_
  obtain ⟨hb, hk, hf, hgot⟩ := ht
  refine wp_imp (demandPage_spec hb pid demand) (fun _ t' ht' => ?_) (fun _ _ => False.elim)
    fun w t' ht' => ⟨ht'.1, Or.inr (Or.inr (hf ▸ ht'.2))⟩
  obtain ⟨hb', hk', hf', hcase⟩ := ht'
  refine ⟨trivial, hb', hk.trans hk', hf'.trans hf, ?_⟩
  rcases hcase with ⟨rfl, hpage⟩ | ⟨hnone, hdem, p, hp, hfresh, hclear⟩
  · rcases hgot with ⟨rfl, hneed⟩ | ⟨_, hgot⟩
    · exact .kept hneed hpage
    · exact hgot
  · rcases hgot with ⟨rfl, hneed⟩ | ⟨hsome, _⟩
    · obtain ⟨e', m'⟩ := t'
      cases hp
      exact .demanded hneed hnone hdem hfresh hclear
    · exact absurd hnone hsome

/-- What `pagetree_get_page` leaves when it returns a page: first blocks are added, then the
one entry is served. -/
structure TreeGot (U : Finset Ppn) (R : Ledger) (npage : ℕ) (mode : PageSharingMode)
    (pt : Pagetree) (m : Memory) (r : Option Ppn) (t : Pagetree × Memory) (p : EntPtr)
    (pt1 : Pagetree) (m1 : Memory) (e : PagetreeEntry) : Prop where
  place : locate npage = some p
  walked : TreeWalked U R pt m (pt1, m1)
  reached : pt1.Reached p
  tree : t.1 = pt1.set e p
  page : r = e.page
  balanced : Balanced U t.2 (e.ledger + (pt1.others p + R))
  kept : Kept (pt1.others p + R) m1 t.2
  got : Got pt.demand mode (pt1.others p + R) (pt.get p) m1 (e, t.2)
  failures : t.2.failures = m.failures

lemma Fits.of_walked {pt : Pagetree} {t : Pagetree × Memory} (hfit : Fits m (pt.ledger + R))
    (h : TreeWalked U R pt m t) : Fits t.2 (t.1.ledger + R) :=
  hfit.of_kept h.kept fun p => by simp only [Pi.add_apply, h.same.ents, Nat.le_refl]

lemma Fits.of_got {demand : Bool}
    {t : PagetreeEntry × Memory} (hfit : Fits m (e.ledger + R)) (hk : Kept R m t.2)
    (hgot : Got demand mode R e m t) : Fits t.2 (t.1.ledger + R) := by
  have hfresh : ∀ (pp : Ppn) (m' : Memory), Kept R m m' → m'.refs R pp = 0 →
      Fits m' (one (.ent pp) + R) := by
    intro pp m' hk' hzero p
    have := hfit p
    simp only [Memory.refs, Pi.add_apply, one_apply, hk'.hw] at hzero this ⊢
    have hword : 1 < word32 := by decide
    by_cases hp : p = pp
    · subst hp
      rw [if_pos rfl]
      omega
    · rw [if_neg (by simpa using hp)]
      omega
  cases hgot with
  | copied need page fresh bytes clear => exact hfresh _ _ hk fresh
  | kept need page => exact hfit
  | demanded need page dem fresh clear => exact hfresh _ _ hk fresh

lemma pagetreeGetPage_spec {pt : Pagetree} (h : Balanced U m (pt.ledger + R))
    (hfit : Fits m (pt.ledger + R)) (npage : ℕ) (mode : PageSharingMode) :
    wp (pagetreeGetPage npage mode)
      (fun r t => ∃ p pt1 m1 e, TreeGot U R npage mode pt m r t p pt1 m1 e)
      ⟨fun x t => TreeWalked U R pt m t ∧ (x = .noMem ∧ m.failures < t.2.failures ∨
          x = .noSpace ∧ treePages ≤ npage ∧ t = (pt, m)),
       fun w t => w = .panic ∧ ∃ p, locate npage = some p ∧ GetPanic (pt.get p) mode m t.2⟩
      (pt, m) := by
  simp only [pagetreeGetPage, wp_rules, wp_focus]
  refine wp_mono (pagetreeGetEntp_spec h npage) (fun p t ht => ?_) fun _ _ => id
  obtain ⟨pt1, m1⟩ := t
  obtain ⟨hloc, hwalk, hreach, hf⟩ := ht
  have hvalid := locate_valid hloc
  have hsplit := ledger_split hvalid hreach
  have hget : pt1.get p = pt.get p := hwalk.same.get p hvalid
  have hb : Balanced U m1 ((pt1.get p).ledger + (pt1.others p + R)) := by
    rw [← add_assoc, ← hsplit]
    exact hwalk.balanced
  have hfit1 : Fits m1 ((pt1.get p).ledger + (pt1.others p + R)) := by
    rw [← add_assoc, ← hsplit]
    exact hfit.of_walked hwalk
  refine wp_imp (pagetreeGetEnt_spec hb hfit1 pt1.pid pt1.demand mode) (fun r t ht => ?_)
    (fun x t ht => ?_) fun w t ht => ?_
  · obtain ⟨hr, hb', hk', hf', hgot⟩ := ht
    refine ⟨p, pt1, m1, t.1, hloc, hwalk, hreach, rfl, hr, hb', hk', ?_, hf'.trans hf⟩
    rw [← hget, ← hwalk.same.demand]
    exact hgot
  · obtain ⟨hx, he, hb', hk', hf'⟩ := ht
    have hset : (entAt p).set t.1 pt1 = pt1 := by
      rw [he]
      exact set_get_self pt1 p
    simp only [hset]
    rw [← add_assoc, ← hsplit] at hb' hk'
    have hwalk' : TreeWalked U R pt m (pt1, t.2) := ⟨hb', hwalk.kept.trans (hk'.mono fun q hq => by
        simpa only [Pi.add_apply, hwalk.same.ents] using hq), hwalk.same⟩
    exact ⟨hwalk', Or.inl ⟨hx, hf ▸ hf'⟩⟩
  · refine ⟨ht.1, p, hloc, ?_⟩
    have := ht.2
    rwa [hget, GetPanic, hf] at this

lemma Pagetree.reached_of_page {pt : Pagetree} {x : EntPtr} (h : (pt.get x).page = some p) :
    pt.Reached x := by
  cases x with
  | direct i => trivial
  | indirect i n => exact Slot.reached_of_page _ _ h

section

variable {pt : Pagetree} {npage : ℕ} {x : EntPtr} (hx : locate npage = some x)

include hx

lemma pagetreeGetEntp_reached (hr : pt.Reached x) :
    wp (pagetreeGetEntp npage) (fun y t => y = x ∧ t = (pt, m)) .never (pt, m) := by
  rw [pagetreeGetEntp, hx]
  cases x with
  | direct i => exact ⟨rfl, rfl⟩
  | indirect i n =>
    simp only [wp_rules, wp_focus]
    refine wp_of_never (pagetreeGetEntpIndirect_reached pt.pid (i + 1) n (pt.ptIndir i) m
      (locate_valid hx).2 hr) fun _ t ht => ?_
    subst ht
    simp [indirAt]

lemma pagetreeGetPage_there (hp : (pt.get x).page = some p) (hcor : (pt.get x).mode ≠ pageSharedCor)
    (hcow : (pt.get x).mode = pageSharedCow → mode ≠ pageExcl ∧ mode ≠ pageSharedCow) :
    wp (pagetreeGetPage npage mode) (fun r t => r = some p ∧ t = (pt, m)) .never (pt, m) := by
  simp only [pagetreeGetPage, wp_rules, wp_focus]
  refine wp_of_never (pagetreeGetEntp_reached hx (reached_of_page hp)) fun y t hyt => ?_
  obtain ⟨rfl, rfl⟩ := hyt
  simp only [pagetreeGetEnt, wp_bind]
  refine wp_breakSharing (fun hneed => ?_) (fun _ => ?_) fun hmode he => ?_
  · exact absurd hneed (not_or.mpr ⟨hcor, fun h => (hcow h.1).2 h.2⟩)
  · simp only [demandPage, wp_rules, entAt, hp, set_get_self]
    exact ⟨by simp, fun _ => ⟨trivial, trivial⟩⟩
  · simp only [List.mem_cons, List.not_mem_nil, or_false] at he
    exact ((hcow (he.resolve_left hcor)).1 hmode).elim

lemma pagetreeGetPage_own (hp : pt.get x = ⟨some p, pageExcl⟩) (mode : PageSharingMode) :
    wp (pagetreeGetPage npage mode) (fun r t => r = some p ∧ t = (pt, m)) .never (pt, m) := by
  refine pagetreeGetPage_there hx (by rw [hp]) ?_ ?_ <;>
    simp [hp, pageExcl, pageSharedCor, pageSharedCow]

end

/-- The ledger of a page that a caller may have in hand. -/
def inHand : Option Ppn → Ledger
  | some p => one (.held p)
  | none => 0

lemma pagetreeFreeEnt_spec (h : Balanced U m (e.ledger + R)) (hfit : Fits m (e.ledger + R)) :
    wp (pagetreeFreeEnt e)
      (fun _ m' => Balanced U m' R ∧ Kept R m m' ∧ m'.failures = m.failures) .never m := by
  rw [pagetreeFreeEnt]
  cases hp : e.page with
  | none =>
    rw [ledger_of_null hp, zero_add] at h
    exact ⟨h, Kept.refl _ _, rfl⟩
  | some p =>
    rw [ledger_of_page hp, add_comm] at h hfit
    exact pagetreeDecref_spec h (hfit p)

lemma pagetreePutEnt_spec (h : Balanced U m (e.ledger + (inHand page + R)))
    (hfit : Fits m (e.ledger + (inHand page + R))) : wp (pagetreePutEnt page)
      (fun _ t => t.1 = ⟨page, pageExcl⟩ ∧ Balanced U t.2 (t.1.ledger + R) ∧ Kept R m t.2 ∧
        t.2.failures = m.failures) .never (e, m) := by
  simp only [pagetreePutEnt, wp_bind, wp_state, wp_shared]
  refine wp_of_never (pagetreeFreeEnt_spec h hfit) fun _ m1 h1 => ?_
  obtain ⟨hb, hk, hf⟩ := h1
  cases page with
  | none => exact ⟨rfl, hb, hk.of_add_left, hf⟩
  | some p =>
    simp only [increfIf, pagetreeIncref, wp_change, inHand] at hb hk ⊢
    rw [add_comm] at hb
    refine ⟨trivial, ?_, hk.of_add_left.trans (Kept.setInfo rfl rfl), hf⟩
    rw [ledger_some, add_comm]
    exact hb.incref_held

lemma pagetreePutPage_spec {pt : Pagetree} (h : Balanced U m (pt.ledger + (inHand page + R)))
    (hfit : Fits m (pt.ledger + (inHand page + R))) (npage : ℕ) : wp (pagetreePutPage npage page)
      (fun _ t => ∃ p pt1 m1, locate npage = some p ∧
        TreeWalked U (inHand page + R) pt m (pt1, m1) ∧ pt1.Reached p ∧
        t.1 = pt1.set ⟨page, pageExcl⟩ p ∧ Balanced U t.2 (t.1.ledger + R) ∧
        Kept (pt1.others p + R) m1 t.2 ∧ t.2.failures = m.failures)
      ⟨fun x t => TreeWalked U (inHand page + R) pt m t ∧ (x = .noMem ∧ m.failures < t.2.failures ∨
          x = .noSpace ∧ treePages ≤ npage ∧ t = (pt, m)), fun _ _ => False⟩ (pt, m) := by
  simp only [pagetreePutPage, wp_bind, wp_focus]
  refine wp_mono (pagetreeGetEntp_spec h npage) (fun p t ht => ?_) fun _ _ => id
  obtain ⟨pt1, m1⟩ := t
  obtain ⟨hloc, hwalk, hreach, hf⟩ := ht
  have hvalid := locate_valid hloc
  have hsub : pt1.ledger + (inHand page + R) =
      (pt1.get p).ledger + (inHand page + (pt1.others p + R)) := by
    rw [ledger_split hvalid hreach, add_assoc, add_left_comm (pt1.others p)]
  refine wp_of_never (pagetreePutEnt_spec (hsub ▸ hwalk.balanced)
    (hsub ▸ hfit.of_walked hwalk)) fun _ t ht => ?_
  obtain ⟨he, hb, hk, hf'⟩ := ht
  refine ⟨p, pt1, m1, hloc, hwalk, hreach, by rw [← he]; rfl, ?_, hk, hf'.trans hf⟩
  rw [← add_assoc, ← ledger_set hvalid hreach] at hb
  exact hb

/-! ### Freeing -/

lemma pagetreeFreeSlot_spec : ∀ {l : ℕ} (s : Slot l) (m : Memory) (R : Ledger),
    Balanced U m (s.ledger + R) → Fits m (s.ledger + R) →
    wp (pagetreeFreeSlot s)
      (fun _ m' => Balanced U m' R ∧ Kept R m m' ∧ m'.failures = m.failures) .never m
  | 0, .ent e, m, R, h, hfit => pagetreeFreeEnt_spec h hfit
  | _ + 1, .null, m, R, h, _ => ⟨by simpa using h, Kept.refl _ _, rfl⟩
  | l + 1, .block p f, m, R, h, hfit => by
    -- after `i` rounds the slots from `i` on and the block itself are left
    let left (i : ℕ) : Ledger := ∑ j ∈ Finset.Ico i (width l), (f j).ledger
    have hstart : left 0 + (one (.node p) + R) = (Slot.block p f).ledger + R := by
      simp only [left, Slot.ledger, ← Finset.range_eq_Ico]
      rw [← add_assoc, add_comm (one _)]
    simp only [pagetreeFreeSlot, wp_bind]
    refine wp_post (wp_loop (fun i m' => Balanced U m' (left i + (one (.node p) + R)) ∧
      Fits m' (left i + (one (.node p) + R)) ∧ Kept R m m' ∧ m'.failures = m.failures)
      (width l) 0 m ?_ fun i m1 _ hi h1 => ?_) fun _ m1 h1 => ?_
    · rw [hstart]
      exact ⟨h, hfit, Kept.refl _ _, rfl⟩
    · obtain ⟨hb, hfit1, hk, hf⟩ := h1
      have hsplit : left i = (f i).ledger + left (i + 1) :=
        Finset.sum_eq_sum_Ico_succ_bot (by omega) _
      rw [hsplit, add_assoc] at hb hfit1
      refine wp_post (pagetreeFreeSlot_spec (f i) m1 _ hb hfit1) fun _ m2 h2 => ?_
      obtain ⟨hb2, hk2, hf2⟩ := h2
      exact ⟨hb2, hfit1.of_kept hk2 fun q => Nat.le_add_left _ _,
        hk.trans hk2.of_add_left.of_add_left, hf2.trans hf⟩
    obtain ⟨hb, -, hk, hf⟩ := h1
    have hheld : Balanced U m1 (R + one (.held p)) := by
      refine hb.relabel (fun q => ?_) fun q => ?_
      · simp [left, one_apply]
      · simp [left, one_apply]
        omega
    exact wp_post (pageFree_spec hheld) fun _ m2 h2 =>
      ⟨h2.1, hk.trans h2.2.1, h2.2.2.trans hf⟩

structure Pagetree.Empty (pt : Pagetree) : Prop where
  direct : ∀ i < directEntries, (pt.ptDirect i).page = none
  indir : ∀ i < indirectEntries, pt.ptIndir i = .null

lemma Pagetree.Empty.ledger {pt : Pagetree} (h : pt.Empty) : pt.ledger = 0 := by
  rw [Pagetree.ledger, Finset.sum_eq_zero, Finset.sum_eq_zero, add_zero]
  · intro i hi
    rw [h.indir i (Finset.mem_range.mp hi)]
    rfl
  · intro i hi
    exact ledger_of_null (h.direct i (Finset.mem_range.mp hi))

lemma pagetreeFree_spec {pt : Pagetree} (h : Balanced U m (pt.ledger + R))
    (hfit : Fits m (pt.ledger + R)) :
    wp pagetreeFree (fun _ t => t.1.Empty ∧ t.1.pid = pt.pid ∧ t.1.demand = pt.demand ∧
        (∀ i, (t.1.ptDirect i).mode = (pt.ptDirect i).mode) ∧
        Balanced U t.2 R ∧ Kept R m t.2 ∧ t.2.failures = m.failures) .never (pt, m) := by
  -- what stays the same through both loops
  let Inv (t : Pagetree × Memory) : Prop := t.1.pid = pt.pid ∧ t.1.demand = pt.demand ∧
    (∀ i, (t.1.ptDirect i).mode = (pt.ptDirect i).mode) ∧
    Balanced U t.2 (t.1.ledger + R) ∧ Fits t.2 (t.1.ledger + R) ∧ Kept R m t.2 ∧
    t.2.failures = m.failures
  -- the part with the uses `l` is freed, and `pt'` is the tree without it
  have hpart : ∀ {t : Pagetree × Memory} {l rest : Ledger}, Inv t → t.1.ledger = l + rest →
      Balanced U t.2 (l + (rest + R)) ∧ Fits t.2 (l + (rest + R)) ∧ ∀ {pt' : Pagetree} {m2 : Memory},
        pt'.pid = t.1.pid → pt'.demand = t.1.demand →
        (∀ i, (pt'.ptDirect i).mode = (t.1.ptDirect i).mode) → pt'.ledger = rest →
        Balanced U m2 (rest + R) ∧ Kept (rest + R) t.2 m2 ∧ m2.failures = t.2.failures →
        Inv (pt', m2) := by
    rintro t l rest ⟨hpid, hdem, hmode, hb, hfit1, hk, hf⟩ hl
    rw [hl, add_assoc] at hb hfit1
    refine ⟨hb, hfit1, ?_⟩
    rintro pt' m2 hp hd hm rfl ⟨hb2, hk2, hf2⟩
    exact ⟨hp.trans hpid, hd.trans hdem, fun i => (hm i).trans (hmode i), hb2,
      hfit1.of_kept hk2 fun q => Nat.le_add_left _ _, hk.trans hk2.of_add_left, hf2.trans hf⟩
  simp only [pagetreeFree, wp_bind]
  refine wp_post (wp_loop (fun i t => Inv t ∧ ∀ j < i, (t.1.ptDirect j).page = none) _ 0 _
    ⟨⟨rfl, rfl, fun _ => rfl, h, hfit, Kept.refl _ _, rfl⟩, fun j hj => by omega⟩
    fun i t _ hi ht => ?_) fun _ t ht => ?_
  · obtain ⟨hinv, hnull⟩ := ht
    obtain ⟨rest, h1, h2⟩ := directAt_partOf t.1 (show i < directEntries by omega)
    obtain ⟨hb, hfit1, hnext⟩ := hpart hinv h1
    simp only [freeDirect, wp_rules, wp_shared, wp_focus]
    refine wp_of_never (pagetreeFreeEnt_spec hb hfit1) fun _ m2 hm2 =>
      ⟨hnext rfl rfl (fun j => ?_) ?_ hm2, fun j hj => ?_⟩
    · by_cases hj : j = i <;> simp [directAt, hj]
    · rw [h2, ledger_none, zero_add]
    · by_cases hji : j = i
      · simp [directAt, hji]
      · simpa [directAt, hji] using hnull j (by omega)
  refine wp_post (wp_loop (fun i t => Inv t ∧ (∀ j < directEntries, (t.1.ptDirect j).page = none) ∧
    ∀ j < i, t.1.ptIndir j = .null) _ 0 _
    ⟨ht.1, fun j hj => ht.2 j (by omega), fun j hj => by omega⟩ fun i t _ hi ht => ?_)
    fun _ t' ht' => ?_
  · obtain ⟨hinv, hd, hnull⟩ := ht
    obtain ⟨rest, h1, h2⟩ := indirAt_partOf t.1 (show i < indirectEntries by omega)
    obtain ⟨hb, hfit1, hnext⟩ := hpart hinv h1
    simp only [freeIndir, wp_rules, wp_shared, wp_focus]
    refine wp_of_never (pagetreeFreeSlot_spec _ _ _ hb hfit1) fun _ m2 hm2 =>
      ⟨hnext rfl rfl (fun _ => rfl) ?_ hm2, hd, fun j hj => ?_⟩
    · rw [h2, ledger_null, zero_add]
    · by_cases hji : j = i
      · subst hji
        simp [indirAt]
      · simpa [indirAt, hji] using hnull j (by omega)
  obtain ⟨⟨hpid, hdem, hmode, hb, -, hk, hf⟩, hd, hi⟩ := ht'
  have hempty : t'.1.Empty := ⟨hd, fun j hj => hi j (by omega)⟩
  rw [hempty.ledger, zero_add] at hb
  exact ⟨hempty, hpid, hdem, hmode, hb, hk, hf⟩

end Corey.Mem
