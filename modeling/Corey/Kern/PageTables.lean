import Corey.Kern.AddressTree
import Corey.Mem.Contents

/-!
Page tables as partial maps from pages to entries (`arch/amd64/pmap.c`).

The indices of an address at the levels up to `l` are the digits of its page number, cut to what
a table of level `l` covers. The two walks, the one that creates tables and the one that clears
entries, are compared with a map by the number these digits make.
-/

namespace Corey.Kern

open Function Corey.Comp Corey.Mem PmTable

variable {l va va' first last : ℕ} {e : Pte}

/-! ### The digits of an address -/

/-- The page number of an address within a table of level `l`. -/
def pageLow (l va : ℕ) : ℕ := va / 2 ^ 12 % 2 ^ (9 * (l + 1))

lemma pdx_lt (l va : ℕ) : pdx l va < 512 := Nat.mod_lt _ (by decide)

lemma pageLow_lt (l va : ℕ) : pageLow l va < 2 ^ (9 * (l + 1)) := Nat.mod_lt _ (Nat.two_pow_pos _)

lemma pageLow_succ (l va : ℕ) :
    pageLow (l + 1) va = 2 ^ (9 * (l + 1)) * pdx (l + 1) va + pageLow l va := by
  have hpow : 2 ^ (9 * (l + 1 + 1)) = 2 ^ (9 * (l + 1)) * 512 := by
    rw [show 9 * (l + 1 + 1) = 9 * (l + 1) + 9 by omega, Nat.pow_add]
  rw [pageLow, hpow, Nat.mod_mul, Nat.div_div_eq_div_mul, ← Nat.pow_add, Nat.add_comm]
  rfl

lemma digit_le_iff {n a b c d : ℕ} (hb : b < n) (hd : d < n) :
    n * a + b ≤ n * c + d ↔ a < c ∨ a = c ∧ b ≤ d := by
  rcases Nat.lt_trichotomy a c with h | rfl | h
  · have := Nat.mul_le_mul_left n (Nat.succ_le_of_lt h)
    rw [Nat.mul_succ] at this
    omega
  · omega
  · have := Nat.mul_le_mul_left n (Nat.succ_le_of_lt h)
    rw [Nat.mul_succ] at this
    omega

lemma pageLow_le_iff : pageLow (l + 1) va ≤ pageLow (l + 1) va' ↔
    pdx (l + 1) va < pdx (l + 1) va' ∨
      pdx (l + 1) va = pdx (l + 1) va' ∧ pageLow l va ≤ pageLow l va' := by
  rw [pageLow_succ, pageLow_succ, digit_le_iff (pageLow_lt l va) (pageLow_lt l va')]

lemma pageLow_eq_iff : pageLow (l + 1) va = pageLow (l + 1) va' ↔
    pdx (l + 1) va = pdx (l + 1) va' ∧ pageLow l va = pageLow l va' := by
  rw [Nat.le_antisymm_iff, pageLow_le_iff, pageLow_le_iff]
  omega

lemma pageLow_user (h : va < ulim) : pageLow 3 va = va / pgsize := by
  have : va / 2 ^ 12 < 2 ^ 36 := by
    rw [Nat.div_lt_iff_lt_mul (by decide)]
    exact Nat.lt_trans h (by decide)
  exact Nat.mod_eq_of_lt this

lemma pdx_user (h : va < ulim) : pdx 3 va < 256 := by
  have : va / 2 ^ 39 < 256 := by
    rw [Nat.div_lt_iff_lt_mul (by decide)]
    exact Nat.lt_of_lt_of_le h (by decide)
  exact Nat.lt_of_le_of_lt (Nat.mod_le _ _) this

lemma pageLow_bot (l : ℕ) : pageLow l 0 = 0 := by simp [pageLow]

lemma pageLow_top (hl : l ≤ 3) : pageLow l (2 ^ 64 - 1) = 2 ^ (9 * (l + 1)) - 1 :=
  match l, hl with
  | 0, _ => by decide
  | 1, _ => by decide
  | 2, _ => by decide
  | 3, _ => by decide

/-! ### Entries -/

@[simp] lemma lookup_emptyTable : ∀ (l va : ℕ), (emptyTable : PmTable l).lookup va = none
  | 0, _ => rfl
  | l + 1, va => lookup_emptyTable l va

/-- The tables on the way to an address are there. -/
def PmTable.Ready : {l : ℕ} → PmTable l → ℕ → Prop
  | 0, _, _ => True
  | l + 1, t, va => ∃ p ent, t (pdx (l + 1) va) = .table p ent ∧ PmTable.Ready ent va

lemma lookup_setLeaf : ∀ {l : ℕ} (t : PmTable l), t.Ready va →
    (t.setLeaf va e).lookup va' =
      if pageLow l va' = pageLow l va then some e else t.lookup va'
  | 0, t, _ => by
    simp only [setLeaf, lookup]
    by_cases h : pageLow 0 va' = pageLow 0 va
    · have hdx : pdx 0 va' = pdx 0 va := h
      rw [if_pos h, hdx, update_self]
      rfl
    · have hdx : pdx 0 va' ≠ pdx 0 va := h
      rw [if_neg h, update_of_ne hdx]
  | l + 1, t, ⟨p, ent, hent, hready⟩ => by
    have ih := lookup_setLeaf ent hready
    simp only [setLeaf, lookup, under, hent, PmEnt.sub, PmEnt.setSub, pageLow_eq_iff]
    by_cases h : pdx (l + 1) va' = pdx (l + 1) va
    · rw [h, update_self]
      simpa [hent, PmEnt.sub] using ih
    · rw [update_of_ne h, if_neg fun hc => h hc.1]

lemma clipped {i : ℕ} (hl : l ≤ 3) (h1 : pdx (l + 1) first ≤ i) (h2 : i ≤ pdx (l + 1) last)
    (hi : pdx (l + 1) va = i) :
    (pageLow l (if i = pdx (l + 1) first then first else 0) ≤ pageLow l va ∧
      pageLow l va ≤ pageLow l (if i = pdx (l + 1) last then last else 2 ^ 64 - 1)) ↔
    pageLow (l + 1) first ≤ pageLow (l + 1) va ∧ pageLow (l + 1) va ≤ pageLow (l + 1) last := by
  have htop := pageLow_top hl
  have hlt := pageLow_lt l va
  rw [pageLow_le_iff, pageLow_le_iff, hi]
  split_ifs with ha hb hb
  · omega
  · rw [htop]
    omega
  · rw [pageLow_bot]
    omega
  · rw [htop, pageLow_bot]
    omega

lemma lookup_invalidate : ∀ {l : ℕ} (t : PmTable l) (first last : ℕ), l ≤ 3 →
    (t.invalidate first last).lookup va =
      if pageLow l first ≤ pageLow l va ∧ pageLow l va ≤ pageLow l last then none
      else t.lookup va
  | 0, t, first, last, _ => by
    simp only [invalidate, lookup]
    by_cases h : pageLow 0 first ≤ pageLow 0 va ∧ pageLow 0 va ≤ pageLow 0 last
    · rw [if_pos h, if_pos (show pdx 0 first ≤ pdx 0 va ∧ pdx 0 va ≤ pdx 0 last from h)]
      rfl
    · rw [if_neg h, if_neg (show ¬ (pdx 0 first ≤ pdx 0 va ∧ pdx 0 va ≤ pdx 0 last) from h)]
  | l + 1, t, first, last, hl => by
    simp only [invalidate, lookup]
    by_cases hin : pdx (l + 1) first ≤ pdx (l + 1) va ∧ pdx (l + 1) va ≤ pdx (l + 1) last
    · rw [if_pos hin]
      cases hent : t (pdx (l + 1) va) with
      | none => simp [PmEnt.sub]
      | link a p => simp [PmEnt.sub]
      | table p ent =>
        simp only [PmEnt.sub]
        rw [lookup_invalidate ent _ _ (by omega)]
        exact if_congr (clipped (by omega) hin.1 hin.2 rfl) rfl rfl
    · rw [if_neg hin, if_neg fun hc => hin ?_]
      rw [pageLow_le_iff, pageLow_le_iff] at hc
      omega

/-! ### The way to an address -/

/-- The tree whose link ends the way to an address. -/
def PmTable.linkOn : {l : ℕ} → PmTable l → ℕ → Option Kobj
  | 0, _, _ => none
  | l + 1, t, va =>
    match (t (pdx (l + 1) va)).link? with
    | some (b, _) => some b
    | none => PmTable.linkOn (t (pdx (l + 1) va)).sub va

lemma linkOn_low (t : PmTable 1) (va : ℕ) : t.linkOn va = none := by
  cases h : t (pdx 1 va) <;> simp [linkOn, h, PmEnt.link?]

lemma linkOn_root (t : PmTable 3) (va : ℕ) :
    t.linkOn va = ((t (pdx 3 va)).sub (pdx 2 va)).link?.map Prod.fst := by
  have h3 : (t (pdx 3 va)).link? = none := by cases t (pdx 3 va) <;> rfl
  rw [linkOn, h3]
  show linkOn (t (pdx 3 va)).sub va = _
  rw [linkOn]
  cases hl : ((t (pdx 3 va)).sub (pdx 2 va)).link? with
  | none => exact linkOn_low _ va
  | some x => rfl

lemma linkOn_emptyTable : ∀ (l va : ℕ), (emptyTable : PmTable l).linkOn va = none
  | 0, _ => rfl
  | l + 1, va => linkOn_emptyTable l va

lemma linkOn_setLeaf : ∀ {l : ℕ} (t : PmTable l), t.Ready va →
    (t.setLeaf va e).linkOn va' = t.linkOn va'
  | 0, _, _ => rfl
  | l + 1, t, ⟨p, ent, hent, hready⟩ => by
    simp only [setLeaf, linkOn, under, hent, PmEnt.sub, PmEnt.setSub]
    by_cases h : pdx (l + 1) va' = pdx (l + 1) va
    · rw [h, update_self, hent]
      exact linkOn_setLeaf ent hready
    · rw [update_of_ne h]

lemma linkOn_invalidate : ∀ {l : ℕ} (t : PmTable l) (first last : ℕ), t.linkOn va = none →
    (t.invalidate first last).linkOn va = none
  | 0, _, _, _, _ => rfl
  | l + 1, t, first, last, h => by
    simp only [invalidate, linkOn]
    by_cases hin : pdx (l + 1) first ≤ pdx (l + 1) va ∧ pdx (l + 1) va ≤ pdx (l + 1) last
    · rw [if_pos hin]
      cases hent : t (pdx (l + 1) va) with
      | none => exact linkOn_emptyTable l va
      | link a p => exact linkOn_emptyTable _ va
      | table p ent =>
        rw [linkOn, hent] at h
        exact linkOn_invalidate ent _ _ h
    · rw [if_neg hin]
      exact h

/-- Tables have been added on the way to an address, and nothing is mapped by them. -/
structure Paved (va : ℕ) (t t' : PmTable l) : Prop where
  lookup : ∀ va', t'.lookup va' = t.lookup va'
  linkOn : ∀ va', t'.linkOn va' = t.linkOn va'
  others : ∀ i ≠ pdx l va, t' i = t i

namespace Paved

lemma refl (t : PmTable l) : Paved va t t := ⟨fun _ => rfl, fun _ => rfl, fun _ _ => rfl⟩

lemma trans {t t' t'' : PmTable l} (h : Paved va t t') (h' : Paved va t' t'') : Paved va t t'' :=
  ⟨fun va' => (h'.lookup va').trans (h.lookup va'), fun va' => (h'.linkOn va').trans (h.linkOn va'),
    fun i hi => (h'.others i hi).trans (h.others i hi)⟩

lemma below {t : PmTable (l + 1)} {ent : PmTable l} (h : (t (pdx (l + 1) va)).link? = none)
    (hp : Paved va (t (pdx (l + 1) va)).sub ent) (p : Ppn) :
    Paved va t (update t (pdx (l + 1) va) (.table p ent)) := by
  refine ⟨fun va' => ?_, fun va' => ?_, fun i hi => update_of_ne hi _ _⟩ <;>
    by_cases hva : pdx (l + 1) va' = pdx (l + 1) va
  · simp only [PmTable.lookup, hva, update_self]
    exact hp.lookup va'
  · simp [PmTable.lookup, hva]
  · simp only [PmTable.linkOn, hva, update_self, h]
    exact hp.linkOn va'
  · simp [PmTable.linkOn, hva]

end Paved

/-! ### Walking -/

section

variable {ι : Type} {U : Finset Ppn} {T : Finset ι}

lemma wp_under {α : Type} {i : ℕ} {p : Ppn} {ent : PmTable l} {s : PmTable (l + 1) × Forest ι}
    (h : s.1 i = .table p ent) {m : PmM ι l α} {Q : α → PmTable (l + 1) × Forest ι → Prop}
    {X : Exits Errno (PmTable (l + 1) × Forest ι)} : wp (focus (under i) m) Q X s ↔
      wp m (fun a x => Q a (update s.1 i (.table p x.1), x.2))
        (X.comap fun x => (update s.1 i (.table p x.1), x.2)) (ent, s.2) := by
  simp only [wp_focus, under, h, PmEnt.sub, PmEnt.setSub]

lemma ensureTable_paves (pid : ℕ) (s : PmTable (l + 1) × Forest ι)
    (hlink : (s.1 (pdx (l + 1) va)).link? = none) :
    wp (ensureTable pid (pdx (l + 1) va)) (fun _ s' => Paved va s.1 s'.1 ∧
      ∃ p ent, s'.1 (pdx (l + 1) va) = .table p ent) (.both fun s' => Paved va s.1 s'.1) s := by
  simp only [ensureTable, wp_rules, wp_shared]
  refine ⟨fun hnone => ?_, fun hsome => ⟨.refl _, ?_⟩⟩
  · have hsub : (s.1 (pdx (l + 1) va)).sub = emptyTable := by
      cases he : s.1 (pdx (l + 1) va) <;> simp [he, PmEnt.isNone, PmEnt.sub] at hnone ⊢
    refine wp_of_forall (fun p f => ?_) (fun _ _ => .refl _) fun _ _ => trivial
    refine wp_of_forall (fun _ f' => ?_) (fun _ _ => .refl _) fun _ _ => trivial
    exact ⟨.below hlink (hsub ▸ .refl _) p, p, emptyTable, update_self _ _ _⟩
  · cases he : s.1 (pdx (l + 1) va) with
    | none => simp [he, PmEnt.isNone] at hsome
    | link a p => simp [he, PmEnt.link?] at hlink
    | table p ent => exact ⟨p, ent, rfl⟩

/-- **The creating walk** leads to level 0 or to a link and changes no translation. -/
lemma pgdirWalk_paves (pid : ℕ) : ∀ (l : ℕ) (s : PmTable l × Forest ι),
    wp (pgdirWalk pid va l) (fun r s' => r = s.1.linkOn va ∧ Paved va s.1 s'.1 ∧
      (r = none → s'.1.Ready va)) (.both fun s' => Paved va s.1 s'.1) s
  | 0, s => ⟨rfl, .refl _, fun _ => trivial⟩
  | l + 1, s => by
    simp only [pgdirWalk, wp_rules]
    cases hlink : (s.1 (pdx (l + 1) va)).link? with
    | some x => exact ⟨by simp [linkOn, hlink], .refl _, by simp⟩
    | none =>
      refine wp_bind.mpr (wp_post (ensureTable_paves pid s hlink) fun _ s1 h1 => ?_)
      obtain ⟨hpave, p, ent, hent⟩ := h1
      have hbelow : ∀ {ent'}, Paved va ent ent' →
          Paved va s.1 (update s1.1 (pdx (l + 1) va) (.table p ent')) := fun h =>
        hpave.trans (.below (by rw [hent]; rfl) (by rwa [hent]) p)
      refine (wp_under hent).mpr (wp_mono (pgdirWalk_paves pid l (ent, s1.2)) (fun r s2 h2 => ?_)
        fun _ s2 => hbelow)
      obtain ⟨hr, hpave2, hready⟩ := h2
      refine ⟨hr.trans ?_, hbelow hpave2, fun hnone => ⟨p, s2.1, update_self _ _ _, hready hnone⟩⟩
      rw [← hpave.linkOn va, linkOn, hent]
      rfl

/-- Only the allocator can fail. -/
lemma pgdirWalk_sound [DecidableEq ι] (pid va : ℕ) : ∀ (l : ℕ) (s : PmTable l × Forest ι),
    s.2.Sound U T → wp (pgdirWalk pid va l) (fun _ s' => s'.2.Sound U T)
      ⟨fun _ s' => s'.2.Sound U T, fun _ _ => False⟩ s
  | 0, _, h => h
  | l + 1, s, h => by
    simp only [pgdirWalk, ensureTable, wp_rules]
    cases (s.1 (pdx (l + 1) va)).link? with
    | some x => exact h
    | none =>
      simp only [wp_rules, wp_shared, wp_focus]
      refine ⟨fun _ => ?_, fun _ => pgdirWalk_sound pid va l _ h⟩
      refine wp_mono (Forest.takePage_spec h pid) (fun p f hf => ?_) fun _ _ hf => hf.1.sound
      simp only [Forest.onMem, pageZero, wp_zoom, wp_change]
      exact pgdirWalk_sound pid va l _ ⟨hf.1.sound.balanced.setBytes p zeroPage, hf.1.sound.fits⟩

end

/-! ### Runs -/

inductive PmOp
  | put (va : ℕ) (pp : Ppn) (flags : ℕ) (src : PteSrc)
  | invalidate (first last : ℕ)

def PmOp.Legal : PmOp → Prop
  | .put va _ _ _ => va < ulim
  | .invalidate first last => first ≤ last ∧ last < ulim

def PmOp.body (a : Kobj) (pid : ℕ) : PmOp → KM Unit
  | .put va pp flags src => asArchPutpage a va pid (pteOf pp flags src)
  | .invalidate first last => atInvalidateRange a first last

def paging (a : Kobj) (pid : ℕ) : Process Machine PmOp (Except Errno Unit) where
  step op s := (op.body a pid).reply s

/-- What an operation with this answer makes of the map from page numbers to entries. An entry is
of the page that was put, writable and executable as the flags say. -/
def PmOp.effect : PmOp → Except Errno Unit → (ℕ → Option Pte) → ℕ → Option Pte
  | .put va pp flags src, .ok _, f => update f (va / pgsize) (some
      { page := pp
        write := hasFlags flags segmapWrite
        exec := hasFlags flags segmapExec
        src := src })
  | .put _ _ _ _, .error _, f => f
  | .invalidate first last, _, f => fun n =>
    if first / pgsize ≤ n ∧ n ≤ last / pgsize then none else f n

/-- The map after operations with these answers. -/
def effects : List PmOp → List (Except Errno Unit) → (ℕ → Option Pte) → ℕ → Option Pte
  | op :: ops, r :: rs, f => effects ops rs (op.effect r f)
  | _, _, f => f

/-- The user half of a root maps pages as `f` says, without links, and the kernel half is `k`. -/
structure Maps (k : ℕ → PmEnt 3) (t : PmTable 3) (f : ℕ → Option Pte) : Prop where
  clear : ∀ va < ulim, t.linkOn va = none
  lookup : ∀ va < ulim, t.lookup va = f (va / pgsize)
  kernel : ∀ i, 256 ≤ i → t i = k i

namespace Maps

variable {k : ℕ → PmEnt 3} {t t' : PmTable 3} {f : ℕ → Option Pte}

lemma paved (h : Maps k t f) (hva : va < ulim) (hp : Paved va t t') : Maps k t' f where
  clear va' hva' := (hp.linkOn va').trans (h.clear va' hva')
  lookup va' hva' := (hp.lookup va').trans (h.lookup va' hva')
  kernel i hi := (hp.others i (by have := pdx_user hva; omega)).trans (h.kernel i hi)

lemma setLeaf (h : Maps k t f) (hva : va < ulim) (hr : t.Ready va) (e : Pte) :
    Maps k (t.setLeaf va e) (update f (va / pgsize) (some e)) where
  clear va' hva' := (linkOn_setLeaf t hr).trans (h.clear va' hva')
  lookup va' hva' := by
    rw [lookup_setLeaf t hr, pageLow_user hva, pageLow_user hva', h.lookup va' hva']
    by_cases heq : va' / pgsize = va / pgsize
    · rw [if_pos heq, heq, update_self]
    · rw [if_neg heq, update_of_ne heq]
  kernel i hi := by
    rw [← h.kernel i hi]
    exact update_of_ne (show i ≠ pdx 3 va by have := pdx_user hva; omega) _ _

lemma invalidate (h : Maps k t f) (hfirst : first < ulim) (hlast : last < ulim) :
    Maps k (t.invalidate first last)
      (fun n => if first / pgsize ≤ n ∧ n ≤ last / pgsize then none else f n) where
  clear va hva := linkOn_invalidate t first last (h.clear va hva)
  lookup va hva := by
    rw [lookup_invalidate t first last (Nat.le_refl 3), pageLow_user hva, pageLow_user hfirst,
      pageLow_user hlast, h.lookup va hva]
  kernel i hi := by
    rw [← h.kernel i hi]
    exact if_neg (show ¬ (pdx 3 first ≤ i ∧ i ≤ pdx 3 last) by
      have := pdx_user hlast
      omega)

lemma linksIn (h : Maps k t f) (hlast : last < ulim) : t.linksIn first last = [] := by
  have hpdx : ∀ i j : ℕ, i < 256 → j < 512 → 2 ^ 39 * i + 2 ^ 30 * j < ulim ∧
      pdx 3 (2 ^ 39 * i + 2 ^ 30 * j) = i ∧ pdx 2 (2 ^ 39 * i + 2 ^ 30 * j) = j := by
    intro i j hi hj
    refine ⟨?_, ?_, ?_⟩
    · simp only [ulim]
      omega
    · show (2 ^ 39 * i + 2 ^ 30 * j) / 2 ^ 39 % 512 = i
      omega
    · show (2 ^ 39 * i + 2 ^ 30 * j) / 2 ^ 30 % 512 = j
      omega
  refine List.flatMap_eq_nil_iff.mpr fun i _ => ?_
  by_cases hi : pdx 3 first ≤ i ∧ i ≤ pdx 3 last
  · rw [if_pos hi]
    have hi' : i < 256 := by
      have := pdx_user hlast
      omega
    cases hent : t i with
    | none => rfl
    | table p ent =>
      refine List.filterMap_eq_nil_iff.mpr fun j hj => ?_
      obtain ⟨hva, h3, h2⟩ := hpdx i j hi' (List.mem_range.mp hj)
      have hc := h.clear _ hva
      rw [linkOn_root, h3, hent, h2] at hc
      have hj' : (ent j).link? = none := Option.map_eq_none_iff.mp hc
      simp [hj']
  · rw [if_neg hi]

end Maps

section

variable {U : Finset Ppn} {T : Finset TreeId} {a : Kobj} {s : Machine} {k : ℕ → PmEnt 3}
  {kern : ℕ → Option KernTable} {f : ℕ → Option Pte}

structure RootMaps (U : Finset Ppn) (T : Finset TreeId) (a : Kobj) (k : ℕ → PmEnt 3)
    (kern : ℕ → Option KernTable) (s : Machine) (f : ℕ → Option Pte) : Prop where
  live : (s.obj a).live = true
  type : (s.obj a).koType = .addressTree
  sound : s.forest.Sound U T
  map : ∃ pm, (s.obj a).tree.atPgmap = some pm ∧ pm.int = false ∧ pm.kern = kern ∧
    Maps k pm.root f

lemma pgdirWalkIn_spec (h : RootMaps U T a k kern s f) (hva : va < ulim) (pid : ℕ) :
    wp (pgdirWalkIn a va pid) (fun r s' => r = none ∧ RootMaps U T a k kern s' f ∧
        ∃ pm, (s'.obj a).tree.atPgmap = some pm ∧ pm.root.Ready va)
      ⟨fun _ s' => RootMaps U T a k kern s' f, fun _ _ => False⟩ s := by
  obtain ⟨pm, hpm, hint, hkern, hmaps⟩ := h.map
  have hup : ∀ x : PmTable 3 × Forest TreeId, x.2.Sound U T → Paved va pm.root x.1 →
      RootMaps U T a k kern (Machine.modObj a
        (fun o => { o with tree := { o.tree with atPgmap := some { pm with root := x.1 } } })
        { s with forest := x.2 }) f := fun x hx hp =>
    ⟨by simpa using h.live, by simpa using h.type, hx, { pm with root := x.1 }, by simp, hint,
      hkern, hmaps.paved hva hp⟩
  simp only [pgdirWalkIn, wp_rules, wp_derefAs, onPagemap, hpm, theMap]
  refine ⟨fun _ _ => ⟨?_, nofun⟩, fun _ hty => (hty h.type).elim, fun hdead => ?_⟩
  · rintro _ ⟨⟩
    refine ⟨fun _ => ?_, fun hno => (hno hva).elim⟩
    rw [wp_zoom, hpm, wp_focus, if_neg (by simp [hint])]
    simp only [wp_focus, rootOf]
    refine wp_imp (wp_and (pgdirWalk_paves pid 3 (pm.root, s.forest))
      (pgdirWalk_sound pid va 3 _ h.sound)) (fun r x hx => ?_) (fun _ x hx => hup x hx.2 hx.1)
      fun _ _ hx => hx.2
    obtain ⟨⟨hr, hpave, hready⟩, hsound⟩ := hx
    have hr := hr.trans (hmaps.clear va hva)
    exact ⟨hr, hup x hsound hpave, { pm with root := x.1 }, by simp, hready hr⟩
  · rw [h.live] at hdead
    exact absurd hdead (by simp)

lemma asArchPutpage_spec (h : RootMaps U T a k kern s f) (hva : va < ulim) (pid : ℕ) (e : Pte) :
    wp (asArchPutpage a va pid e)
      (fun _ s' => RootMaps U T a k kern s' (update f (va / pgsize) (some e)))
      ⟨fun _ s' => RootMaps U T a k kern s' f, fun _ _ => False⟩ s := by
  simp only [asArchPutpage, wp_bind]
  refine wp_post (pgdirWalkIn_spec h hva pid) fun r s' hs' => ?_
  obtain ⟨rfl, h', pm, hpm, hready⟩ := hs'
  obtain ⟨pm', hpm', hint, hkern, hmaps⟩ := h'.map
  cases hpm.symm.trans hpm'
  simp only [modTree, wp_change]
  refine ⟨by simpa using h'.live, by simpa using h'.type, h'.sound, pm.setLeaf va e,
    by simp [hpm], ?_⟩
  simp only [Pagemap.setLeaf, hint, Bool.false_eq_true, if_false]
  exact ⟨trivial, hkern, hmaps.setLeaf hva hready e⟩

lemma atInvalidateRange_spec (h : RootMaps U T a k kern s f) (hle : first ≤ last)
    (hlast : last < ulim) :
    wp (atInvalidateRange a first last) (fun _ s' => RootMaps U T a k kern s' fun n =>
        if first / pgsize ≤ n ∧ n ≤ last / pgsize then none else f n) .never s := by
  obtain ⟨pm, hpm, hint, hkern, hmaps⟩ := h.map
  simp only [atInvalidateRange, wp_rules, wp_derefAs, wp_halt, modTree, hpm]
  refine ⟨fun _ _ => ⟨fun _ => ⟨?_, by simp⟩, fun hno => (hno hlast).elim⟩,
    fun _ hty => (hty h.type).elim, fun hdead => ?_⟩
  · rintro _ ⟨⟩
    have hlinks : pm.linksIn first last = [] := by
      simp only [Pagemap.linksIn, hint, Bool.false_eq_true, if_false]
      exact hmaps.linksIn hlast
    refine ⟨fun hno => by simp [hlinks] at hno, fun _ => ?_⟩
    refine ⟨by simpa using h.live, by simpa using h.type, h.sound, pm.invalidate first last,
      by simp [hpm], ?_⟩
    simp only [Pagemap.invalidate, hint, Bool.false_eq_true, if_false]
    exact ⟨trivial, hkern, hmaps.invalidate (by omega) hlast⟩
  · rw [h.live] at hdead
    exact absurd hdead (by simp)

lemma RootMaps.step (h : RootMaps U T a k kern s f) (op : PmOp) (hop : op.Legal) (pid : ℕ) :
    ∃ r s', (paging a pid).step op s = some (r, s') ∧ RootMaps U T a k kern s' (op.effect r f) := by
  cases op with
  | put va pp flags src =>
    have hspec := asArchPutpage_spec h hop pid (pteOf pp flags src)
    simp only [paging, PmOp.body, reply]
    simp only [wp] at hspec
    rcases hrun : asArchPutpage a va pid (pteOf pp flags src) s with ⟨u | e | w, s'⟩ <;>
      rw [hrun] at hspec
    · exact ⟨_, s', rfl, hspec⟩
    · exact ⟨_, s', rfl, hspec⟩
    · exact hspec.elim
  | invalidate first last =>
    have hspec := atInvalidateRange_spec h hop.1 hop.2
    simp only [paging, PmOp.body, reply]
    simp only [wp] at hspec
    rcases hrun : atInvalidateRange a first last s with ⟨u | e | w, s'⟩ <;> rw [hrun] at hspec
    · exact ⟨_, s', rfl, hspec⟩
    · exact hspec.elim
    · exact hspec.elim

lemma RootMaps.run (pid : ℕ) : ∀ (ops : List PmOp) {s : Machine} {f : ℕ → Option Pte},
    RootMaps U T a k kern s f → (∀ op ∈ ops, op.Legal) →
    ∃ answers s', (paging a pid).trace ops s = some (answers, s') ∧
      RootMaps U T a k kern s' (effects ops answers f)
  | [], s, f, h, _ => ⟨[], s, rfl, h⟩
  | op :: ops, s, f, h, hops => by
    obtain ⟨r, s1, hstep, h1⟩ := h.step op (hops op (by simp)) pid
    obtain ⟨rs, s2, hrest, h2⟩ := RootMaps.run pid ops h1 fun op' hop' =>
      hops op' (List.mem_cons_of_mem _ hop')
    exact ⟨r :: rs, s2, by simp [Process.trace, hstep, hrest], h2⟩

end

/-- **Page tables implement a partial map** from virtual pages to entries: after any run, each
user address is mapped as the calls that succeeded say, and the kernel half is what it was. -/
theorem page_tables_are_partial_map {U : Finset Ppn} {T : Finset TreeId} {a : Kobj} {s : Machine}
    {pm : Pagemap} (hlive : (s.obj a).live = true) (htype : (s.obj a).koType = .addressTree)
    (hpm : (s.obj a).tree.atPgmap = some pm) (hroot : pm.int = false)
    (hempty : ∀ i < 256, pm.root i = .none) (hsound : s.forest.Sound U T) (pid : ℕ)
    (ops : List PmOp) (hops : ∀ op ∈ ops, op.Legal) :
    ∃ answers s' pm', (paging a pid).trace ops s = some (answers, s') ∧
      (s'.obj a).tree.atPgmap = some pm' ∧
      (∀ va < ulim, pm'.root.lookup va = effects ops answers (fun _ => none) (va / pgsize)) ∧
      (∀ i, 256 ≤ i → pm'.root i = pm.root i) ∧ pm'.kern = pm.kern := by
  have hinit : Maps pm.root pm.root fun _ => none := by
    refine ⟨fun va hva => ?_, fun va hva => ?_, fun _ _ => rfl⟩
    · have hnone : pm.root (pdx 3 va) = .none := hempty _ (pdx_user hva)
      rw [linkOn_root, hnone]
      rfl
    · have hnone : pm.root (pdx 3 va) = .none := hempty _ (pdx_user hva)
      show lookup (pm.root (pdx 3 va)).sub va = none
      rw [hnone]
      exact lookup_emptyTable 2 va
  obtain ⟨answers, s', htrace, h'⟩ := RootMaps.run pid ops
    (⟨hlive, htype, hsound, pm, hpm, hroot, rfl, hinit⟩ : RootMaps U T a pm.root pm.kern s _) hops
  obtain ⟨pm', hpm', -, hkern, hmaps⟩ := h'.map
  exact ⟨answers, s', pm', htrace, hpm', hmaps.lookup, hmaps.kernel, hkern⟩

instance (op : PmOp) : Decidable op.Legal := by
  cases op <;> unfold PmOp.Legal <;> infer_instance

/-- A machine of eight pages with one root pagemap. -/
def oneRoot : Machine :=
  { bareMachine 8 1 1 with
    obj := fun _ => { live := true, koType := .addressTree,
                      tree := { atPgmap := some { page := 0, int := false } } } }

lemma oneRoot_sound : oneRoot.forest.Sound (Finset.range 8) ∅ :=
  Forest.Sound.init ⟨bootMemory_boot 8, rfl, fun _ h => absurd h (Finset.notMem_empty _)⟩

/-- The second of three pages is unmapped again. -/
def mapRun : List PmOp :=
  [.put 0x1000 5 6 (.page 1 0), .put 0x2fff 6 4 (.page 1 1), .put 0x40000000 7 7 (.page 2 0),
   .invalidate 0x2000 0x2000]

theorem page_tables_are_partial_map_mapRun :
    ∃ answers s' pm', (paging 0 0).trace mapRun oneRoot = some (answers, s') ∧
      (s'.obj 0).tree.atPgmap = some pm' ∧
      (∀ va < ulim, pm'.root.lookup va = effects mapRun answers (fun _ => none) (va / pgsize)) ∧
      (∀ i, 256 ≤ i → pm'.root i = (emptyTable : PmTable 3) i) ∧ pm'.kern = fun _ => none :=
  page_tables_are_partial_map (s := oneRoot) rfl rfl
    (show _ = some ({ page := 0, int := false } : Pagemap) from rfl) rfl
    (fun _ _ => rfl) oneRoot_sound 0 mapRun (by decide)

end Corey.Kern
