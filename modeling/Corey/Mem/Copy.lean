import Corey.Mem.Walk

/-!
What `pagetree_copy` does.

The three loops of the copy, over the direct entries, the indirect blocks and the slots of one
block, go through the parts of two containers side by side. One rule covers them: a round
that copies a part makes a loop that copies the container.
-/

namespace Corey.Mem

open Corey.Comp Finset

variable {U : Finset Ppn} {m m' : Memory} {L L' R : Ledger} {p q : Ppn}

/-- How an entry and its copy look: a null entry is skipped; an exclusive copy has its own
page with the same bytes, which the allocator has handed out as not cleared; otherwise the page
is shared and the source is copy-on-write from now on. -/
inductive CopiedEnt (mode : PageSharingMode) (m m' : Memory) (s d : PagetreeEntry) :
    PagetreeEntry → PagetreeEntry → Prop
  | null (page : s.page = none) : CopiedEnt mode m m' s d s d
  | excl {p q : Ppn} (page : s.page = some p) (hmode : mode = pageExcl)
      (bytes : m'.bytes q = m.bytes p) (clear : (m'.info q).piClear = false) :
      CopiedEnt mode m m' s d s ⟨some q, mode⟩
  | shared {p : Ppn} (page : s.page = some p) (hmode : mode ≠ pageExcl) :
      CopiedEnt mode m m' s d { s with mode := pageSharedCow } ⟨some p, mode⟩

variable {mode : PageSharingMode} {pid l : ℕ} {m0 m'' : Memory} {s d s' d' : PagetreeEntry}

lemma CopiedEnt.later (h : CopiedEnt mode m m' s d s' d') (hk : Kept d'.ledger m' m'') :
    CopiedEnt mode m m'' s d s' d' := by
  cases h with
  | null page => exact .null page
  | excl page hmode bytes clear =>
    refine .excl page hmode ?_ ?_
    · rw [hk.bytes _ (by simp [one_apply]), bytes]
    · rw [hk.clear _ (by simp [one_apply]), clear]
  | shared page hmode => exact .shared page hmode

lemma CopiedEnt.earlier (h : CopiedEnt mode m m' s d s' d') (hk : Kept s.ledger m0 m) :
    CopiedEnt mode m0 m' s d s' d' := by
  cases h with
  | null page => exact .null page
  | excl page hmode bytes clear =>
    refine .excl page hmode (bytes.trans (hk.bytes _ ?_)) clear
    rw [ledger_of_page page]
    simp [one_apply]
  | shared page hmode => exact .shared page hmode

/-- From `s` and `d` in memory `m` something has been copied. `S` bounds the number of new
references to each page, except that a fresh page may get one. -/
structure Copying {α : Type} (U : Finset Ppn) (R : Ledger) (lg : α → Ledger) (S : Ppn → ℕ)
    (s d : α) (m : Memory) (t : (α × α) × Memory) : Prop where
  balanced : Balanced U t.2 (lg t.1.1 + (lg t.1.2 + R))
  src : lg t.1.1 = lg s
  kept : Kept (lg s + (lg d + R)) m t.2
  mono : ∀ p, lg d (.ent p) ≤ lg t.1.2 (.ent p)
  grow : ∀ p, lg t.1.2 (.ent p) ≤ lg d (.ent p) + S p ∨
    m.refs (lg s + (lg d + R)) p = 0 ∧ lg t.1.2 (.ent p) ≤ 1

/-- What copying from `s` to `d` has to achieve, with `Q` on success. -/
def CopySpec {α : Type} (U : Finset Ppn) (R : Ledger) (lg : α → Ledger) (S : Ppn → ℕ)
    (body : PtM (α × α) Unit) (Q : (α × α) × Memory → Prop) (s d : α) (m : Memory) : Prop :=
  wp body (fun _ t => Copying U R lg S s d m t ∧ Q t ∧ t.2.failures = m.failures)
    ⟨fun e t => e = .noMem ∧ Copying U R lg S s d m t ∧ m.failures < t.2.failures,
     fun _ _ => False⟩ ((s, d), m)

section
variable {α : Type} {lg : α → Ledger} {S S' : Ppn → ℕ} {s d : α} {t t' : (α × α) × Memory}

lemma Copying.none (h : Balanced U m' (lg s + (lg d + R))) (hk : Kept (lg s + (lg d + R)) m m') :
    Copying U R lg S s d m ((s, d), m') :=
  ⟨h, rfl, hk, fun _ => le_rfl, fun _ => .inl (Nat.le_add_right _ _)⟩

lemma Copying.refl (h : Balanced U m (lg s + (lg d + R))) : Copying U R lg S s d m ((s, d), m) :=
  .none h (.refl _ _)

lemma Copying.weaken (h : Copying U R lg S s d m t) (hS : ∀ p, S p ≤ S' p) :
    Copying U R lg S' s d m t :=
  { h with
    grow := fun p => (h.grow p).imp_left fun hle => hle.trans (Nat.add_le_add_left (hS p) _) }

lemma Copying.trans (h : Copying U R lg S s d m t)
    (h' : Copying U R lg S' t.1.1 t.1.2 t.2 t') (hS : ∀ p, S' p ≤ lg s (.ent p)) :
    Copying U R lg (fun p => S p + S' p) s d m t' := by
  obtain ⟨hbal, hsrc, hkept, hmono, hgrow⟩ := h
  obtain ⟨hbal', hsrc', hkept', hmono', hgrow'⟩ := h'
  refine ⟨hbal', hsrc'.trans hsrc, hkept.trans (hkept'.mono fun p hp => ?_), fun p => ?_,
    fun p => ?_⟩
  · have := hmono p
    simp only [Pi.add_apply, hsrc] at hp ⊢
    omega
  · exact Nat.le_trans (hmono p) (hmono' p)
  · have h1 := hgrow p
    have h2 := hgrow' p
    have h3 := hmono p
    have h4 := hS p
    simp only [Memory.refs, Pi.add_apply, hkept.hw, hsrc] at h1 h2 h3 h4 ⊢
    omega

end

lemma pagetreeCopyEnt_spec (hs : s.page = some p) (hd : d.page = none)
    (h : Balanced U m (s.ledger + (d.ledger + R))) (mode : PageSharingMode) (pid : ℕ) :
    CopySpec U R PagetreeEntry.ledger (fun q => s.ledger (.ent q)) (pagetreeCopyEnt mode pid)
      (fun t => CopiedEnt mode m t.2 s d t.1.1 t.1.2) s d m := by
  have hdl : d.ledger = 0 := ledger_of_null hd
  have hsl : s.ledger = one (.ent p) := ledger_of_page hs
  rw [hsl, hdl, zero_add] at h
  simp only [CopySpec, pagetreeCopyEnt, wp_bind, wp_state, wp_need, hs]
  refine ⟨fun o ho => ?_, by simp⟩
  cases ho
  by_cases hmode : mode = pageExcl
  · simp only [hmode, if_true, wp_bind, wp_shared, wp_focus, wp_change, Ptr.snd, pagetreeIncref,
      memcpy]
    refine wp_mono (pageAlloc_spec h pid) (fun q m1 h1 => ?_) fun e m1 h1 => ?_
    · obtain ⟨hb, hk, hclear, hf⟩ := h1
      obtain ⟨hent, -, -, hhw, -⟩ := hb.held_alone
      refine ⟨⟨?_, rfl, ?_, fun r => ?_, fun r => ?_⟩, .excl hs rfl ?_ ?_, hf⟩
      · rw [hsl, ledger_some, add_left_comm, add_comm]
        exact (hb.incref_held).setBytes q _
      · rw [hsl, hdl, zero_add]
        exact hk.trans ((Kept.setInfo (by rfl) (by rfl)).trans (Kept.setBytes hent))
      · simp [hdl]
      · by_cases hr : r = q
        · subst hr
          refine Or.inr ⟨?_, by simp [one_apply]⟩
          rw [hsl, hdl, zero_add, Memory.refs, hent, ← hk.hw, hhw]
        · exact Or.inl (by simp [one_apply, hr])
      · simpa using hk.bytes p (by simp [one_apply])
      · simpa using hclear
    · refine ⟨h1.1, .none ?_ ?_, h1.2.2.2⟩
      · simpa [hsl, hdl] using h1.2.1
      · simpa [hsl, hdl] using h1.2.2.1
  · simp only [hmode, if_false, wp_bind, wp_shared, wp_focus, wp_change, Ptr.snd, Ptr.fst,
      pagetreeIncref]
    refine ⟨⟨?_, ?_, Kept.setInfo rfl rfl, fun r => ?_, fun r => ?_⟩, .shared hs hmode, rfl⟩
    · have hs' : PagetreeEntry.ledger { s with mode := pageSharedCow } = one (.ent p) :=
        ledger_of_page hs
      rw [hs', ledger_some, add_left_comm, add_comm]
      exact h.incref_ent (by simp [Memory.refs, one_apply])
    · exact (ledger_of_page hs).trans hsl.symm
    · simp [hdl]
    · exact Or.inl (by simp [hdl, hsl])

lemma copyEntIf_spec (hd : d.page = none)
    (h : Balanced U m (s.ledger + (d.ledger + R))) (mode : PageSharingMode) (pid : ℕ) :
    CopySpec U R PagetreeEntry.ledger (fun q => s.ledger (.ent q)) (copyEntIf mode pid)
      (fun t => CopiedEnt mode m t.2 s d t.1.1 t.1.2) s d m := by
  rw [CopySpec, copyEntIf, wp_bind, wp_state, wp_ite]
  refine ⟨fun hs => ?_, fun hs => ⟨Copying.refl h, .null (not_not.mp hs), rfl⟩⟩
  obtain ⟨p, hp⟩ := Option.ne_none_iff_exists'.mp hs
  exact pagetreeCopyEnt_spec hp hd h mode pid

/-! ### Containers -/

/-- A container whose parts `r 0, …, r (n - 1)` are apart from each other. -/
structure Parts {C : Type} {P : ℕ → Type} (Good : C → Prop) (r : ∀ i, Ptr C (P i))
    (lgP : ∀ i, P i → Ledger) (lgC : C → Ledger) (n : ℕ) : Prop where
  part : ∀ c i, Good c → i < n → (r i).PartOf (lgP i) lgC c
  good : ∀ c i a, Good c → Good ((r i).set a c)
  self : ∀ c i a, Good c → (r i).get ((r i).set a c) = a
  other : ∀ c i j a, Good c → j ≠ i → (r j).get ((r i).set a c) = (r j).get c

section Loop

variable {C : Type} {P : ℕ → Type} {GoodS GoodD : C → Prop} {r : ∀ i, Ptr C (P i)}
  {lgP : ∀ i, P i → Ledger} {lgC : C → Ledger} {n : ℕ}

/-- The parts before `i` have been copied, the others have not been touched. -/
structure CopiedUpTo (U : Finset Ppn) (R : Ledger) (GoodS GoodD : C → Prop)
    (r : ∀ i, Ptr C (P i)) (lgP : ∀ i, P i → Ledger) (lgC : C → Ledger)
    (Rel : ∀ i, Memory → Memory → P i → P i → P i → P i → Prop) (s d : C) (m : Memory) (i : ℕ)
    (t : (C × C) × Memory) : Prop where
  copying : Copying U R lgC (fun p => ∑ j ∈ Finset.range i, lgP j ((r j).get s) (.ent p)) s d m t
  goodSrc : GoodS t.1.1
  goodDst : GoodD t.1.2
  rest : ∀ j, i ≤ j → (r j).get t.1.1 = (r j).get s ∧ (r j).get t.1.2 = (r j).get d
  done : ∀ j < i, Rel j m t.2 ((r j).get s) ((r j).get d) ((r j).get t.1.1) ((r j).get t.1.2)

lemma Copying.part {S : Ppn → ℕ} {a b : C} {i : ℕ} {ra rb : Ledger} {t : (P i × P i) × Memory}
    (ha : lgC a = lgP i ((r i).get a) + ra ∧ ∀ x, lgC ((r i).set x a) = lgP i x + ra)
    (hb : lgC b = lgP i ((r i).get b) + rb ∧ ∀ x, lgC ((r i).set x b) = lgP i x + rb)
    (h : Copying U (ra + (rb + R)) (lgP i) S ((r i).get a) ((r i).get b) m t) :
    Copying U R lgC S a b m (((r i).set t.1.1 a, (r i).set t.1.2 b), t.2) := by
  have hframe : ∀ x y : P i, lgP i x + ra + (lgP i y + rb + R) =
      lgP i x + (lgP i y + (ra + (rb + R))) := fun x y => by
    rw [add_assoc, add_assoc, add_left_comm ra]
  obtain ⟨hbal, hsrc, hkept, hmono, hgrow⟩ := h
  refine ⟨?_, ?_, ?_, fun p => ?_, fun p => ?_⟩
  · rw [ha.2, hb.2, hframe]
    exact hbal
  · rw [ha.2, hsrc, ha.1]
  · rw [ha.1, hb.1, hframe]
    exact hkept
  · rw [hb.2, hb.1]
    exact Nat.add_le_add_right (hmono p) _
  · have := hgrow p
    rw [ha.1, hb.1, hframe, hb.2]
    simp only [Memory.refs, Pi.add_apply] at this ⊢
    omega

variable (partsS : Parts GoodS r lgP lgC n) (partsD : Parts GoodD r lgP lgC n)
  (body : ∀ i, PtM (P i × P i) Unit)
  (Rel : ∀ i, Memory → Memory → P i → P i → P i → P i → Prop)
  (hlater : ∀ {i m m' m'' s d s' d'}, Rel i m m' s d s' d' → Kept (lgP i d') m' m'' →
    Rel i m m'' s d s' d')
  (hearlier : ∀ {i m0 m m' s d s' d'}, Rel i m m' s d s' d' → Kept (lgP i s) m0 m →
    Rel i m0 m' s d s' d')

include partsS partsD hlater hearlier

lemma CopiedUpTo.step {s d a b : C} {m1 : Memory} {i : ℕ} (hi : i < n)
    (hbody : ∀ R, Balanced U m1 (lgP i ((r i).get s) + (lgP i ((r i).get d) + R)) →
      CopySpec U R (lgP i) (fun p => lgP i ((r i).get s) (.ent p)) (body i)
        (fun t => Rel i m1 t.2 ((r i).get s) ((r i).get d) t.1.1 t.1.2)
        ((r i).get s) ((r i).get d) m1)
    (h : CopiedUpTo U R GoodS GoodD r lgP lgC Rel s d m i ((a, b), m1)) :
    wp (focus ((Ptr.fst.comp (r i)).both (Ptr.snd.comp (r i))) (body i))
      (fun _ t => CopiedUpTo U R GoodS GoodD r lgP lgC Rel s d m (i + 1) t ∧
        t.2.failures = m1.failures) ⟨fun e t => e = .noMem ∧ Copying U R lgC
        (fun p => ∑ j ∈ range (i + 1), lgP j ((r j).get s) (.ent p)) s d m t ∧
        m1.failures < t.2.failures, fun _ _ => False⟩ ((a, b), m1) := by
  obtain ⟨hcopy, hga, hgb, hrest, hdone⟩ := h
  obtain ⟨hra, hrb⟩ := hrest i (Nat.le_refl i)
  obtain ⟨resta, ha⟩ := partsS.part a i hga hi
  obtain ⟨restb, hb⟩ := partsD.part b i hgb hi
  simp only at hra hrb hdone
  have hsrc : lgC s = lgP i ((r i).get a) + resta := hcopy.src.symm.trans ha.1
  have hframe : lgC a + (lgC b + R) =
      lgP i ((r i).get s) + (lgP i ((r i).get d) + (resta + (restb + R))) := by
    rw [ha.1, hb.1, hra, hrb, add_assoc, add_assoc, add_left_comm resta]
  have hspec := hbody _ (hframe ▸ hcopy.balanced)
  -- the container after this round, on success and on failure
  have hstep : ∀ t, Copying U (resta + (restb + R)) (lgP i)
      (fun p => lgP i ((r i).get s) (.ent p)) ((r i).get s) ((r i).get d) m1 t →
      Copying U R lgC (fun p => ∑ j ∈ range (i + 1), lgP j ((r j).get s) (.ent p)) s d m
        (((r i).set t.1.1 a, (r i).set t.1.2 b), t.2) := by
    intro t ht
    rw [← hra, ← hrb] at ht
    simp only [sum_range_succ, ← hra]
    refine hcopy.trans (ht.part ha hb) fun p => ?_
    rw [hsrc]
    exact Nat.le_add_right _ _
  rw [wp_focus]
  have hget : ((Ptr.fst.comp (r i)).both (Ptr.snd.comp (r i))).get (a, b) =
      ((r i).get s, (r i).get d) := by
    rw [← hra, ← hrb]
    rfl
  rw [hget]
  refine wp_mono hspec (fun _ t ht => ⟨⟨hstep t ht.1, partsS.good a i _ hga, partsD.good b i _ hgb,
    fun j hj => ?_, fun j hj => ?_⟩, ht.2.2⟩)
    fun e t ht => ⟨ht.1, hstep t ht.2.1, ht.2.2⟩
  · have hne : j ≠ i := by omega
    obtain ⟨h1, h2⟩ := hrest j (by omega)
    exact ⟨(partsS.other a i j _ hga hne).trans h1, (partsD.other b i j _ hgb hne).trans h2⟩
  · obtain ⟨tcopy, trel, -⟩ := ht
    rcases Nat.lt_succ_iff_lt_or_eq.mp hj with hlt | rfl
    · -- copied in an earlier round: its page is in the frame of this one
      have hne : j ≠ i := by omega
      have hold := hdone j hlt
      obtain ⟨restj, hj1, -⟩ := partsD.part b j hgb (by omega)
      have h1 : (r j).get ((r i).set t.1.1 a) = (r j).get a := partsS.other a i j _ hga hne
      have h2 : (r j).get ((r i).set t.1.2 b) = (r j).get b := partsD.other b i j _ hgb hne
      show Rel j m t.2 _ _ ((r j).get ((r i).set t.1.1 a)) ((r j).get ((r i).set t.1.2 b))
      rw [h1, h2]
      refine hlater hold (tcopy.kept.mono fun p hp => ?_)
      rw [← hframe, hj1]
      simp only [Pi.add_apply]
      omega
    · have h1 : (r j).get ((r j).set t.1.1 a) = t.1.1 := partsS.self a j _ hga
      have h2 : (r j).get ((r j).set t.1.2 b) = t.1.2 := partsD.self b j _ hgb
      show Rel j m t.2 _ _ ((r j).get ((r j).set t.1.1 a)) ((r j).get ((r j).set t.1.2 b))
      rw [h1, h2]
      refine hearlier trel (hcopy.kept.mono fun p hp => ?_)
      rw [hsrc, hra]
      simp only [Pi.add_apply]
      omega

lemma copyLoop_spec {s d : C} (hs : GoodS s) (hd : GoodD d)
    (hbody : ∀ i m R, i < n → Balanced U m (lgP i ((r i).get s) + (lgP i ((r i).get d) + R)) →
      CopySpec U R (lgP i) (fun p => lgP i ((r i).get s) (.ent p)) (body i)
        (fun t => Rel i m t.2 ((r i).get s) ((r i).get d) t.1.1 t.1.2)
        ((r i).get s) ((r i).get d) m)
    (h : Balanced U m (lgC s + (lgC d + R))) :
    CopySpec U R lgC (fun p => ∑ j ∈ range n, lgP j ((r j).get s) (.ent p))
      (loop (fun i => focus ((Ptr.fst.comp (r i)).both (Ptr.snd.comp (r i))) (body i)) 0 n)
      (fun t => GoodS t.1.1 ∧ GoodD t.1.2 ∧ ∀ j < n,
        Rel j m t.2 ((r j).get s) ((r j).get d) ((r j).get t.1.1) ((r j).get t.1.2)) s d m := by
  refine wp_post (wp_loop (fun i t => CopiedUpTo U R GoodS GoodD r lgP lgC Rel s d m i t ∧
    t.2.failures = m.failures) n 0 ((s, d), m) ⟨⟨Copying.refl h, hs, hd, fun _ _ => ⟨rfl, rfl⟩,
      fun j hj => by omega⟩, rfl⟩ fun i t _ hi ht => ?_) fun _ t ht => ?_
  · obtain ⟨hinv, hf⟩ := ht
    obtain ⟨⟨a, b⟩, m1⟩ := t
    refine wp_mono (hinv.step partsS partsD body Rel hlater hearlier (by omega)
      fun R hR => hbody i m1 R (by omega) hR)
      (fun _ t' ht' => ⟨ht'.1, ht'.2.trans hf⟩) fun e t' ht' => ?_
    obtain ⟨he, hcopy, hf'⟩ := ht'
    exact ⟨he, hcopy.weaken fun p => sum_le_sum_of_subset (range_mono (by omega)), hf ▸ hf'⟩
  · obtain ⟨⟨hcopy, hg1, hg2, -, hdone⟩, hf⟩ := ht
    rw [Nat.zero_add] at hcopy hdone
    exact ⟨hcopy, ⟨hg1, hg2, hdone⟩, hf⟩

end Loop

/-! ### Slots -/

def Slot.Null : {l : ℕ} → Slot l → Prop
  | 0, .ent e => e.page = none
  | _ + 1, s => s = .null

lemma zeroSlot_null : ∀ l, (zeroSlot l).Null
  | 0 => rfl
  | _ + 1 => rfl

lemma entry_ledger_le : ∀ {l : ℕ} (s : Slot l) (n : ℕ), n < span l → ∀ u,
    (s.entry n).ledger u ≤ s.ledger u
  | 0, .ent e, _, _, _ => Nat.le_refl _
  | _ + 1, .null, _, _, _ => Nat.zero_le _
  | l + 1, .block p f, n, hn, u => by
    obtain ⟨rest, h1, -⟩ := below_partOf p f (index_lt hn)
    have ih := entry_ledger_le (f (n / span l)) (n % span l) (Nat.mod_lt _ (span_pos l)) u
    rw [h1]
    exact Nat.le_trans ih (Nat.le_add_right _ _)

/-- Every page below the slot is copied. -/
def SlotCopied {l : ℕ} (mode : PageSharingMode) (m m' : Memory) (s d s' d' : Slot l) : Prop :=
  ∀ n < span l, CopiedEnt mode m m' (s.entry n) (d.entry n) (s'.entry n) (d'.entry n)

lemma SlotCopied.later {s d s' d' : Slot l} (h : SlotCopied mode m m' s d s' d')
    (hk : Kept d'.ledger m' m'') :
    SlotCopied mode m m'' s d s' d' := fun n hn =>
  (h n hn).later (hk.mono fun _ hp => Nat.lt_of_lt_of_le hp (entry_ledger_le d' n hn _))

lemma SlotCopied.earlier {s d s' d' : Slot l} (h : SlotCopied mode m m' s d s' d')
    (hk : Kept s.ledger m0 m) :
    SlotCopied mode m0 m' s d s' d' := fun n hn =>
  (h n hn).earlier (hk.mono fun _ hp => Nat.lt_of_lt_of_le hp (entry_ledger_le s n hn _))

lemma block_parts (l : ℕ) : Parts (fun s : Slot (l + 1) => ∃ p f, s = .block p f)
    (fun i => below i) (fun _ => Slot.ledger) Slot.ledger (width l) where
  part := by rintro _ i ⟨p, f, rfl⟩ hi; exact below_partOf p f hi
  good := by rintro _ i a ⟨p, f, rfl⟩; exact ⟨p, _, rfl⟩
  self := by rintro _ i a ⟨p, f, rfl⟩; simp [below]
  other := by rintro _ i j a ⟨p, f, rfl⟩ hne; simp [below, hne]

lemma pagetreeCopySlot_spec (mode : PageSharingMode) (pid : ℕ) : ∀ (l : ℕ) (s d : Slot l)
    (m : Memory) (R : Ledger), d.Null → Balanced U m (s.ledger + (d.ledger + R)) →
    CopySpec U R Slot.ledger (fun p => s.ledger (.ent p)) (pagetreeCopySlot mode pid l)
      (fun t => SlotCopied mode m t.2 s d t.1.1 t.1.2) s d m
  | 0, .ent es, .ent ed, m, R, hd, h => by
    rw [CopySpec, pagetreeCopySlot, wp_focus]
    refine wp_mono (copyEntIf_spec hd h mode pid) (fun _ t ht => ?_) fun e t ht => ?_
    · obtain ⟨⟨cbal, csrc, ckept, cmono, cgrow⟩, hrel, hf⟩ := ht
      exact ⟨⟨cbal, csrc, ckept, cmono, cgrow⟩, fun n _ => hrel, hf⟩
    · obtain ⟨he, ⟨cbal, csrc, ckept, cmono, cgrow⟩, hf⟩ := ht
      exact ⟨he, ⟨cbal, csrc, ckept, cmono, cgrow⟩, hf⟩
  | l + 1, .null, d, m, R, _, h => by
    rw [CopySpec, pagetreeCopySlot, wp_bind, wp_state, wp_ite]
    exact ⟨nofun, fun _ => ⟨Copying.refl h, fun n _ => .null rfl, rfl⟩⟩
  | l + 1, .block p f, _, m, R, rfl, h => by
    rw [ledger_null, zero_add] at h
    simp only [CopySpec, pagetreeCopySlot, wp_rules, wp_shared, wp_focus, pageZero]
    refine ⟨fun _ => ⟨fun _ => ?_, fun hno => hno rfl⟩, fun hno => (hno rfl).elim⟩
    refine wp_mono (pageAlloc_spec h pid) (fun q m1 h1 => ?_) fun e m1 h1 => ?_
    · obtain ⟨hb, hk, -, hf⟩ := h1
      obtain ⟨hb', hk'⟩ := hb.newBlock (l := l)
      rw [add_left_comm] at hb'
      have hkept := hk.trans hk'
      have hloop := copyLoop_spec (s := .block p f) (d := zeroBlock l q) (block_parts l)
        (block_parts l) (fun _ => pagetreeCopySlot mode pid l) (fun _ => SlotCopied mode)
        SlotCopied.later SlotCopied.earlier ⟨p, f, rfl⟩ ⟨q, _, rfl⟩
        (fun i m R _ hR => pagetreeCopySlot_spec mode pid l (f i) (zeroSlot l) m R
          (zeroSlot_null l) hR) hb'
      have hup : ∀ t, Copying U R Slot.ledger
          (fun x => ∑ j ∈ range (width l), (f j).ledger (.ent x)) (.block p f)
          (zeroBlock l q) (m1.setBytes q zeroPage) t →
          Copying U R Slot.ledger (fun x => (Slot.block p f).ledger (.ent x)) (.block p f)
            .null m t := by
        rintro t ⟨cbal, csrc, ckept, -, cgrow⟩
        refine ⟨cbal, csrc, ?_, fun x => Nat.zero_le _, fun x => ?_⟩
        · rw [ledger_null, zero_add]
          refine hkept.trans (ckept.mono fun x hx => ?_)
          simpa [one_apply] using hx
        · have := cgrow x
          rw [ledger_zeroBlock, Memory.refs, hkept.hw] at this
          simpa [Memory.refs, one_apply, Slot.ledger] using this
      refine wp_mono hloop (fun _ t ht => ⟨hup t ht.1, fun n hn => ?_, ?_⟩) fun e t ht => ?_
      · obtain ⟨-, ⟨⟨p', f', hp'⟩, ⟨q', g', hq'⟩, hrel⟩, -⟩ := ht
        have hent := hrel (n / span l) (index_lt hn) (n % span l) (Nat.mod_lt _ (span_pos l))
        rw [hp', hq'] at hent ⊢
        refine CopiedEnt.earlier ?_ (hkept.mono fun x hx => ?_)
        · have hnull : (Slot.null : Slot (l + 1)).entry n = (zeroSlot l).entry (n % span l) :=
            (zeroSlot_entry l _).symm
          rw [hnull]
          exact hent
        · have := entry_ledger_le (.block p f) n hn (.ent x)
          simp only [Pi.add_apply]
          omega
      · exact ht.2.2.trans hf
      · exact ⟨ht.1, hup t ht.2.1, hf ▸ ht.2.2⟩
    · obtain ⟨he, hb, hk, hf⟩ := h1
      exact ⟨he, .none (by simpa using hb) (by simpa using hk), hf⟩

/-! ### Trees -/

structure TreeCopied (mode : PageSharingMode) (m m' : Memory) (s d s' d' : Pagetree) :
    Prop where
  get : ∀ p : EntPtr, p.Valid →
    CopiedEnt mode m m' (s.get p) (d.get p) (s'.get p) (d'.get p)
  srcPid : s'.pid = s.pid
  srcDemand : s'.demand = s.demand
  dstPid : d'.pid = d.pid
  dstDemand : d'.demand = d.demand

lemma direct_parts (pt : Pagetree) :
    Parts (fun c : Pagetree => c.ptIndir = pt.ptIndir ∧ c.pid = pt.pid ∧ c.demand = pt.demand)
      (fun i => directAt i) (fun _ => PagetreeEntry.ledger) Pagetree.ledger directEntries where
  part c _ _ hi := directAt_partOf c hi
  good _ _ _ h := h
  self c i a _ := by simp [directAt]
  other c i j a _ hne := by simp [directAt, hne]

lemma indir_parts (pt : Pagetree) :
    Parts (fun c : Pagetree => c.ptDirect = pt.ptDirect ∧ c.pid = pt.pid ∧
      c.demand = pt.demand) (fun i => indirAt i) (fun i => Slot.ledger (l := i + 1))
      Pagetree.ledger indirectEntries where
  part c _ _ hi := indirAt_partOf c hi
  good _ _ _ h := h
  self c i a _ := by simp [indirAt]
  other c i j a _ hne := by simp [indirAt, hne]

lemma ledger_get_le (pt : Pagetree) {p : EntPtr} (hp : p.Valid) (u : Use) :
    (pt.get p).ledger u ≤ pt.ledger u := by
  cases p with
  | direct i =>
    obtain ⟨rest, h1, -⟩ := directAt_partOf pt hp
    rw [h1]
    exact Nat.le_add_right _ _
  | indirect i n =>
    obtain ⟨rest, h1, -⟩ := indirAt_partOf pt hp.1
    rw [h1]
    exact Nat.le_trans (entry_ledger_le _ n hp.2 u) (Nat.le_add_right _ _)

lemma copyEntries_spec {s d : Pagetree} (hd : d.Empty)
    (h : Balanced U m (s.ledger + (d.ledger + R))) (mode : PageSharingMode) (pid : ℕ) :
    CopySpec U R Pagetree.ledger (fun p => s.ledger (.ent p)) (copyEntries Ptr.fst Ptr.snd mode pid)
      (fun t => TreeCopied mode m t.2 s d t.1.1 t.1.2) s d m := by
  have hdirect := copyLoop_spec (direct_parts s) (direct_parts d) (fun _ => copyEntIf mode pid)
    (fun _ => CopiedEnt mode) CopiedEnt.later CopiedEnt.earlier ⟨rfl, rfl, rfl⟩ ⟨rfl, rfl, rfl⟩
    (fun i m R hi hR => copyEntIf_spec (hd.direct i hi) hR mode pid) h
  have hsum : ∀ p, s.ledger (.ent p) = ∑ j ∈ range directEntries, (s.ptDirect j).ledger (.ent p) +
        ∑ j ∈ range indirectEntries, (s.ptIndir j).ledger (.ent p) := fun p => by
    simp only [Pagetree.ledger, Pi.add_apply, Finset.sum_apply]
  simp only [CopySpec, copyEntries, wp_bind]
  refine wp_mono hdirect (fun _ t ht => ?_) fun e t ht => ?_
  · obtain ⟨hcopy, ⟨⟨hsi, hsp, hsd⟩, ⟨hdi, hdp, hdd⟩, hrel⟩, hf⟩ := ht
    obtain ⟨⟨s1, d1⟩, m1⟩ := t
    have hnull : ∀ i < indirectEntries, (d1.ptIndir i).Null := fun i hi => by
      show d1.ptIndir i = .null
      rw [hdi]
      exact hd.indir i hi
    have hindir := copyLoop_spec (indir_parts s1) (indir_parts d1)
      (fun i => pagetreeCopySlot mode pid (i + 1)) (fun i => SlotCopied mode) SlotCopied.later
      SlotCopied.earlier ⟨rfl, rfl, rfl⟩ ⟨rfl, rfl, rfl⟩
      (fun i m R hi hR => pagetreeCopySlot_spec mode pid (i + 1) _ _ m R (hnull i hi) hR)
      hcopy.balanced
    have hup : ∀ t, Copying U R Pagetree.ledger
        (fun p => ∑ j ∈ range indirectEntries, (s1.ptIndir j).ledger (.ent p)) s1 d1 m1 t →
        Copying U R Pagetree.ledger (fun p => s.ledger (.ent p)) s d m t := by
      intro t ht
      have hall := hcopy.trans ht fun p => by
        rw [hsum, ← hsi]
        exact Nat.le_add_left _ _
      exact hall.weaken fun p => by rw [hsum, ← hsi]; rfl
    refine wp_mono hindir (fun _ t ht => ⟨hup t ht.1, ⟨fun p hp => ?_, ?_, ?_, ?_, ?_⟩, ?_⟩)
      fun e t ht => ⟨ht.1, hup t ht.2.1, ?_⟩
    · obtain ⟨hcopy2, ⟨⟨hs2, -⟩, ⟨hd2, -⟩, hrel2⟩, -⟩ := ht
      cases p with
      | direct i =>
        have h1 := hrel i hp
        have hs' : t.1.1.get (.direct i) = s1.ptDirect i := congrFun hs2 i
        have hd' : t.1.2.get (.direct i) = d1.ptDirect i := congrFun hd2 i
        rw [hs', hd']
        refine CopiedEnt.later h1 (hcopy2.kept.mono fun x hx => ?_)
        have : (d1.ptDirect i).ledger (.ent x) ≤ d1.ledger (.ent x) :=
          ledger_get_le d1 (p := .direct i) hp _
        simp only [Pi.add_apply]
        exact Nat.lt_of_lt_of_le hx (by omega)
      | indirect i n =>
        have h2 := hrel2 i hp.1 n hp.2
        have hs' : (indirAt i).get s1 = s.ptIndir i := congrFun hsi i
        have hd' : (indirAt i).get d1 = d.ptIndir i := congrFun hdi i
        rw [hs', hd'] at h2
        refine CopiedEnt.earlier h2 (hcopy.kept.mono fun x hx => ?_)
        have := ledger_get_le s hp (.ent x)
        simp only [Pi.add_apply]
        exact Nat.lt_of_lt_of_le hx (by omega)
    · exact ht.2.1.1.2.1.trans hsp
    · exact ht.2.1.1.2.2.trans hsd
    · exact ht.2.1.2.1.2.1.trans hdp
    · exact ht.2.1.2.1.2.2.trans hdd
    · exact ht.2.2.trans hf
    · exact hf ▸ ht.2.2
  · obtain ⟨he, hcopy, hf⟩ := ht
    exact ⟨he, hcopy.weaken fun p => hsum p ▸ Nat.le_add_right _ _, hf⟩

lemma TreeCopied.earlier {s d s' d' : Pagetree}
    (h : TreeCopied mode m m' s d s' d') (hk : Kept s.ledger m0 m) :
    TreeCopied mode m0 m' s d s' d' :=
  { h with
    get := fun p hp => (h.get p hp).earlier (hk.mono fun _ hx =>
      Nat.lt_of_lt_of_le hx (ledger_get_le s hp _)) }

/-- While pages of `s` are copied no counter gets full. -/
def RoomToCopy (U : Finset Ppn) (R : Ledger) (s : Pagetree) (m : Memory) : Prop :=
  ∀ (d : Pagetree) (m' : Memory), Balanced U m' (s.ledger + (d.ledger + R)) →
    (∀ p, (m'.info p).piHwRef = (m.info p).piHwRef) →
    (∀ p, d.ledger (.ent p) ≤ s.ledger (.ent p) ∨
      m.refs (s.ledger + R) p = 0 ∧ d.ledger (.ent p) ≤ 1) →
    Fits m' (s.ledger + (d.ledger + R))

lemma pagetreeCopy_spec {s d : Pagetree} (h : Balanced U m (s.ledger + (d.ledger + R)))
    (hfit : Fits m (s.ledger + (d.ledger + R))) (hroom : RoomToCopy U R s m)
    (mode : PageSharingMode) :
    wp (pagetreeCopy Ptr.fst Ptr.snd mode)
      (fun _ t => Balanced U t.2 (t.1.1.ledger + (t.1.2.ledger + R)) ∧
        Fits t.2 (t.1.1.ledger + (t.1.2.ledger + R)) ∧
        t.1.1.ledger = s.ledger ∧ Kept (s.ledger + R) m t.2 ∧ t.2.failures = m.failures ∧
        ∃ d1 : Pagetree, d1.Empty ∧ d1.pid = d.pid ∧ d1.demand = s.demand ∧
          (∀ i, (d1.ptDirect i).mode = (d.ptDirect i).mode) ∧
          TreeCopied mode m t.2 s d1 t.1.1 t.1.2)
      ⟨fun e t => e = .noMem ∧ Balanced U t.2 (t.1.1.ledger + (t.1.2.ledger + R)) ∧
        t.1.1.ledger = s.ledger ∧ t.1.2.Empty ∧ Kept (s.ledger + R) m t.2 ∧
        m.failures < t.2.failures, fun _ _ => False⟩ ((s, d), m) := by
  rw [add_left_comm] at h hfit
  simp only [pagetreeCopy, wp_rules, wp_focus, wp_onErr, Ptr.fst, Ptr.snd]
  refine wp_of_never (pagetreeFree_spec h hfit) fun _ t ht => ?_
  obtain ⟨d1, m1⟩ := t
  obtain ⟨hempty, hpid, -, hmode, hb, hk, hf⟩ := ht
  obtain ⟨d2, hd2⟩ : ∃ d2 : Pagetree, { d1 with demand := s.demand } = d2 := ⟨_, rfl⟩
  have hempty2 : d2.Empty := hd2 ▸ ⟨hempty.direct, hempty.indir⟩
  have hb2 : Balanced U m1 (s.ledger + (d2.ledger + R)) := by
    rw [hempty2.ledger, zero_add]
    exact hb
  have hcap : ∀ t, Copying U R Pagetree.ledger (fun p => s.ledger (.ent p)) s d2 m1 t →
      Kept (s.ledger + R) m t.2 ∧ Fits t.2 (t.1.1.ledger + (t.1.2.ledger + R)) := by
    intro t ht
    have hk' := ht.kept
    rw [hempty2.ledger, zero_add] at hk'
    refine ⟨hk.trans hk', ?_⟩
    rw [ht.src]
    refine hroom _ _ (ht.src ▸ ht.balanced) (hk.trans hk').hw fun p => ?_
    have := ht.grow p
    rwa [hempty2.ledger, zero_add, Pi.zero_apply, Nat.zero_add, hk.refs] at this
  rw [hd2]
  refine wp_mono (copyEntries_spec hempty2 hb2 mode d1.pid) (fun _ t ht => ?_) fun e t ht => ?_
  · obtain ⟨hcopy, hrel, hf'⟩ := ht
    obtain ⟨hkept, hfit'⟩ := hcap t hcopy
    refine ⟨hcopy.balanced, hfit', hcopy.src, hkept, hf'.trans hf, d2, hempty2, ?_, ?_, ?_,
      hrel.earlier hk.of_add_right⟩
    · rw [← hd2]; exact hpid
    · rw [← hd2]
    · rw [← hd2]; exact hmode
  · obtain ⟨he, hcopy, hf'⟩ := ht
    obtain ⟨hkept, hfit'⟩ := hcap t hcopy
    obtain ⟨⟨s', d'⟩, m2⟩ := t
    have hsrc : s'.ledger = s.ledger := hcopy.src
    have hb3 : Balanced U m2 (s'.ledger + (d'.ledger + R)) := hcopy.balanced
    rw [add_left_comm] at hb3 hfit'
    refine wp_of_never (pagetreeFree_spec hb3 hfit') fun _ t ht => ?_
    obtain ⟨hempty4, -, -, -, hb4, hk4, hf4⟩ := ht
    refine ⟨he, ?_, hsrc, hempty4, hkept.trans (hsrc ▸ hk4), ?_⟩
    · rw [hempty4.ledger, zero_add]
      exact hb4
    · rw [hf4, ← hf]
      exact hf'

lemma pagetreeCopy_self_spec {s : Pagetree} (h : Balanced U m (s.ledger + R))
    (hfit : Fits m (s.ledger + R)) (mode : PageSharingMode) :
    wp (pagetreeCopy Ptr.self Ptr.self mode)
      (fun _ t => t.1.Empty ∧ Balanced U t.2 R ∧ Kept R m t.2) .never (s, m) := by
  simp only [pagetreeCopy, wp_rules, wp_focus, wp_onErr, Ptr.self, id]
  refine wp_of_never (pagetreeFree_spec h hfit) fun _ t ht => ?_
  obtain ⟨d1, m1⟩ := t
  obtain ⟨hempty, -, -, -, hb, hk, -⟩ := ht
  simp only [copyEntries, wp_bind]
  -- neither loop finds anything to copy
  refine wp_post (wp_loop (fun _ t => t = (d1, m1)) _ 0 _ rfl fun i t _ hi ht => ?_)
    fun _ t ht => ?_
  · subst ht
    have hnull : (d1.ptDirect i).page = none := hempty.direct i (by omega)
    simp [wp_focus, copyEntIf, Ptr.both, Ptr.comp, directAt, hnull]
  · subst ht
    refine wp_post (wp_loop (fun _ t => t = (d1, m1)) _ 0 _ rfl fun i t _ hi ht => ?_)
      fun _ t ht => ?_
    · subst ht
      have hnull : d1.ptIndir i = .null := hempty.indir i (by omega)
      have hset : Function.update d1.ptIndir i .null = d1.ptIndir := by
        rw [← hnull, Function.update_eq_self]
      simp [wp_focus, pagetreeCopySlot, Ptr.both, Ptr.comp, indirAt, hnull, Slot.isNull, hset]
    · subst ht
      exact ⟨hempty, hb, hk⟩

end Corey.Mem
