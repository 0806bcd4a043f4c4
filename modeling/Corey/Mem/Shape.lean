import Corey.Mem.Ledger

/-!
The pages a page tree uses, and its entries.

A tree's ledger is the sum over its entries and blocks. A pointer into a tree splits the
ledger: what is at the place, and a rest that writing to the place does not touch. All the
tree's operations are described through such splits, so a proof about one entry never speaks
of the others.
-/

open Function Finset

namespace Corey.Comp

variable {σ τ α β M : Type} [AddCommMonoid M]

/-- `r` points to a part of `s`: the total over `s` is that of the part and a rest, and
writing through `r` leaves the rest. -/
def Ptr.PartOf (r : Ptr σ α) (small : α → M) (big : σ → M) (s : σ) : Prop :=
  ∃ rest, big s = small (r.get s) + rest ∧ ∀ a, big (r.set a s) = small a + rest

end Corey.Comp

namespace Corey.Mem

open Corey.Comp Pagetree Slot

lemma sum_update {M ι : Type} [AddCommMonoid M] [DecidableEq ι] {α : ι → Type}
    (g : ∀ i, α i → M) (f : ∀ i, α i) {T : Finset ι} {i : ι} (hi : i ∈ T) (a : α i) :
    ∑ j ∈ T, g j (update f i a j) = g i a + ∑ j ∈ T.erase i, g j (f j) := by
  rw [← add_sum_erase _ _ hi, update_self]
  congr 1
  refine sum_congr rfl fun j hj => ?_
  rw [update_of_ne (ne_of_mem_erase hj)]

lemma index_partOf {M : Type} [AddCommMonoid M] {α : ℕ → Type} (g : ∀ i, α i → M)
    (f : ∀ i, α i) {n i : ℕ} (hi : i < n) :
    (Ptr.index i).PartOf (g i) (fun f => ∑ j ∈ range n, g j (f j)) f := by
  refine ⟨_, ?_, sum_update g f (mem_range.mpr hi)⟩
  have := sum_update g f (mem_range.mpr hi) (f i)
  rwa [update_eq_self] at this

/-! ### Ledgers -/

def PagetreeEntry.ledger (e : PagetreeEntry) : Ledger :=
  match e.page with
  | some p => one (.ent p)
  | none => 0

def Slot.ledger : {l : ℕ} → Slot l → Ledger
  | 0, .ent e => e.ledger
  | _ + 1, .null => 0
  | l + 1, .block p f => one (.node p) + ∑ i ∈ Finset.range (width l), (f i).ledger

def Pagetree.ledger (pt : Pagetree) : Ledger :=
  ∑ i ∈ Finset.range directEntries, (pt.ptDirect i).ledger +
    ∑ i ∈ Finset.range indirectEntries, (pt.ptIndir i).ledger

@[simp] lemma ledger_null {l : ℕ} : (.null : Slot (l + 1)).ledger = 0 := rfl

@[simp] lemma ledger_zeroSlot (l : ℕ) : (zeroSlot l).ledger = 0 := by
  cases l <;> rfl

@[simp] lemma ledger_zeroBlock (l : ℕ) (p : Ppn) : (zeroBlock l p).ledger = one (.node p) := by
  simp [Slot.ledger, zeroBlock]

lemma below_partOf {l i : ℕ} (p : Ppn) (f : ℕ → Slot l) (hi : i < width l) :
    (below i).PartOf Slot.ledger Slot.ledger (.block p f) := by
  obtain ⟨rest, h1, h2⟩ := index_partOf (fun _ => Slot.ledger) f hi
  refine ⟨one (.node p) + rest, ?_, fun a => ?_⟩
  · rw [add_left_comm]
    exact congrArg (one (.node p) + ·) h1
  · rw [add_left_comm]
    exact congrArg (one (.node p) + ·) (h2 a)

lemma directAt_partOf {i : ℕ} (pt : Pagetree) (hi : i < directEntries) :
    (directAt i).PartOf PagetreeEntry.ledger Pagetree.ledger pt := by
  obtain ⟨rest, h1, h2⟩ := index_partOf (fun _ => PagetreeEntry.ledger) pt.ptDirect hi
  refine ⟨rest + ∑ i ∈ range indirectEntries, (pt.ptIndir i).ledger, ?_, fun a => ?_⟩
  · rw [← add_assoc]
    exact congrArg (· + _) h1
  · rw [← add_assoc]
    exact congrArg (· + _) (h2 a)

lemma indirAt_partOf {i : ℕ} (pt : Pagetree) (hi : i < indirectEntries) :
    (indirAt i).PartOf Slot.ledger Pagetree.ledger pt := by
  obtain ⟨rest, h1, h2⟩ := index_partOf (fun i => Slot.ledger (l := i + 1)) pt.ptIndir hi
  refine ⟨∑ i ∈ range directEntries, (pt.ptDirect i).ledger + rest, ?_, fun a => ?_⟩
  · rw [add_left_comm]
    exact congrArg (_ + ·) h1
  · rw [add_left_comm]
    exact congrArg (_ + ·) (h2 a)

/-! ### Entries -/

/-- The blocks on the way to page `n` below a slot are there. -/
def Slot.Reached : {l : ℕ} → Slot l → ℕ → Prop
  | 0, .ent _, _ => True
  | _ + 1, .null, _ => False
  | l + 1, .block _ f, n => (f (n / span l)).Reached (n % span l)

lemma width_pos (l : ℕ) : 0 < width l := by
  cases l
  · decide
  · exact (by decide : 0 < pgsize / 8)

lemma span_pos : ∀ l, 0 < span l
  | 0 => Nat.one_pos
  | l + 1 => Nat.mul_pos (width_pos l) (span_pos l)

lemma index_lt {l n : ℕ} (hn : n < span (l + 1)) : n / span l < width l :=
  Nat.div_lt_of_lt_mul (by rwa [span, Nat.mul_comm] at hn)

lemma setEntry_ledger : ∀ {l : ℕ} (s : Slot l) (n : ℕ), n < span l → s.Reached n →
    ∃ rest, s.ledger = (s.entry n).ledger + rest ∧ ∀ e, (s.setEntry n e).ledger = e.ledger + rest
  | 0, .ent _, n, _, _ => ⟨0, (add_zero _).symm, fun _ => (add_zero _).symm⟩
  | l + 1, .null, n, _, hr => hr.elim
  | l + 1, .block p f, n, hn, hr => by
    obtain ⟨rest, h1, h2⟩ := below_partOf p f (index_lt hn)
    obtain ⟨rest', h1', h2'⟩ := setEntry_ledger (f (n / span l)) (n % span l)
      (Nat.mod_lt _ (span_pos l)) hr
    refine ⟨rest' + rest, ?_, fun e => ?_⟩
    · rw [h1, ← add_assoc]
      exact congrArg (· + rest) h1'
    · rw [← add_assoc, ← h2' e]
      exact h2 _

lemma entry_setEntry_self : ∀ {l : ℕ} (s : Slot l) (n : ℕ) (e : PagetreeEntry),
    s.Reached n → (s.setEntry n e).entry n = e
  | 0, .ent _, _, _, _ => rfl
  | _ + 1, .null, _, _, hr => hr.elim
  | l + 1, .block p f, n, e, hr => by
    simpa [Slot.setEntry, Slot.entry] using entry_setEntry_self (f (n / span l)) (n % span l) e hr

lemma entry_setEntry_of_ne : ∀ {l : ℕ} (s : Slot l) (n k : ℕ) (e : PagetreeEntry),
    n < span l → k < span l → k ≠ n → (s.setEntry n e).entry k = s.entry k
  | 0, .ent _, n, k, _, hn, hk, hne => by
    simp only [span] at hn hk
    omega
  | _ + 1, .null, _, _, _, _, _, _ => rfl
  | l + 1, .block p f, n, k, e, _, _, hne => by
    by_cases hi : k / span l = n / span l
    · have hmod : k % span l ≠ n % span l := fun h => hne (by
        rw [← Nat.div_add_mod k (span l), ← Nat.div_add_mod n (span l), hi, h])
      simpa [Slot.setEntry, Slot.entry, hi] using
        entry_setEntry_of_ne (f (n / span l)) (n % span l) (k % span l) e
          (Nat.mod_lt _ (span_pos l)) (Nat.mod_lt _ (span_pos l)) hmod
    · simp [Slot.setEntry, Slot.entry, hi]

lemma setEntry_entry_self : ∀ {l : ℕ} (s : Slot l) (n : ℕ), s.setEntry n (s.entry n) = s
  | 0, .ent _, _ => rfl
  | _ + 1, .null, _ => rfl
  | l + 1, .block p f, n => by
    simp [Slot.setEntry, Slot.entry, setEntry_entry_self]

/-! ### Places in a tree -/

/-- The place exists in every tree. -/
def EntPtr.Valid : EntPtr → Prop
  | .direct i => i < directEntries
  | .indirect i n => i < indirectEntries ∧ n < span (i + 1)

def Pagetree.Reached (pt : Pagetree) : EntPtr → Prop
  | .direct _ => True
  | .indirect i n => (pt.ptIndir i).Reached n

variable {pt : Pagetree} {p : EntPtr}

lemma entAt_partOf (hp : p.Valid) (hr : pt.Reached p) :
    (entAt p).PartOf PagetreeEntry.ledger Pagetree.ledger pt := by
  cases p with
  | direct i => exact directAt_partOf pt hp
  | indirect i n =>
    obtain ⟨rest, h1, h2⟩ := indirAt_partOf pt hp.1
    obtain ⟨rest', h1', h2'⟩ := setEntry_ledger (pt.ptIndir i) n hp.2 hr
    refine ⟨rest' + rest, ?_, fun e => ?_⟩
    · rw [h1, ← add_assoc]
      exact congrArg (· + rest) h1'
    · rw [← add_assoc, ← h2' e]
      exact h2 _

lemma Pagetree.get_set_self (hr : pt.Reached p) (e : PagetreeEntry) : (pt.set e p).get p = e := by
  cases p with
  | direct i => simp [set, get]
  | indirect i n => simpa [set, get] using entry_setEntry_self _ n e hr

lemma Pagetree.get_set_of_ne {q : EntPtr} (hp : p.Valid) (hq : q.Valid)
    (hne : q ≠ p) (e : PagetreeEntry) : (pt.set e p).get q = pt.get q := by
  cases p with
  | direct i =>
    cases q with
    | direct j =>
      have : j ≠ i := fun h => hne (by rw [h])
      simp [set, get, this]
    | indirect j k => rfl
  | indirect i n =>
    cases q with
    | direct j => rfl
    | indirect j k =>
      by_cases hj : j = i
      · subst hj
        have : k ≠ n := fun h => hne (by rw [h])
        simpa [set, get] using entry_setEntry_of_ne (pt.ptIndir j) n k e hp.2 hq.2 this
      · simp [set, get, hj]

lemma Pagetree.set_get_self (pt : Pagetree) (p : EntPtr) : pt.set (pt.get p) p = pt := by
  cases p with
  | direct i => simp [set, get]
  | indirect i n => simp [set, get, setEntry_entry_self]

@[simp] lemma Pagetree.set_demand (pt : Pagetree) (e : PagetreeEntry) (p : EntPtr) :
    (pt.set e p).demand = pt.demand := by
  cases p <;> rfl

/-- The pages a tree uses apart from the entry at one place. -/
def Pagetree.others (pt : Pagetree) (p : EntPtr) : Ledger := (pt.set {} p).ledger

lemma Pagetree.ledger_set (hp : p.Valid) (hr : pt.Reached p)
    (e : PagetreeEntry) : (pt.set e p).ledger = e.ledger + pt.others p := by
  obtain ⟨rest, -, h2⟩ := entAt_partOf hp hr
  have : pt.others p = rest := (h2 {}).trans (zero_add rest)
  rw [this]
  exact h2 e

lemma Pagetree.ledger_split (hp : p.Valid) (hr : pt.Reached p) :
    pt.ledger = (pt.get p).ledger + pt.others p := by
  rw [← ledger_set hp hr, set_get_self]

/-- The number of pages before indirect block `i`. -/
def blockStart (i : ℕ) : ℕ := directEntries + ∑ j ∈ Finset.range i, span (j + 1)

def treePages : ℕ := blockStart indirectEntries

def EntPtr.index : EntPtr → ℕ
  | .direct i => i
  | .indirect i n => blockStart i + n

lemma locateIndirect_spec : ∀ (k i npage : ℕ), i + k = indirectEntries →
    match locateIndirect k i npage (span (i + 1)) with
    | none => treePages ≤ blockStart i + npage
    | some p => p.Valid ∧ p.index = blockStart i + npage
  | 0, i, npage, hik => by
    simp only [locateIndirect, treePages]
    rw [← hik]
    exact Nat.le_add_right _ _
  | k + 1, i, npage, hik => by
    rw [locateIndirect]
    split_ifs with hlt
    · exact ⟨⟨by omega, hlt⟩, rfl⟩
    · have hspan : span (i + 1) * width 1 = span (i + 1 + 1) := Nat.mul_comm _ _
      have hstart : blockStart (i + 1) + (npage - span (i + 1)) = blockStart i + npage := by
        simp only [blockStart, sum_range_succ]
        omega
      have := locateIndirect_spec k (i + 1) (npage - span (i + 1)) (by omega)
      rwa [hspan, ← hstart]

lemma locate_spec (npage : ℕ) :
    match locate npage with
    | none => treePages ≤ npage
    | some p => p.Valid ∧ p.index = npage := by
  rw [locate]
  split_ifs with hlt
  · exact ⟨hlt, rfl⟩
  · have hspan : width 0 = span (0 + 1) := (Nat.mul_one _).symm
    have hstart : blockStart 0 + (npage - directEntries) = npage := by
      simp only [blockStart, range_zero, sum_empty]
      omega
    have := locateIndirect_spec indirectEntries 0 (npage - directEntries) (Nat.zero_add _)
    rwa [← hspan, hstart] at this

lemma locate_valid {npage : ℕ} (h : locate npage = some p) : p.Valid := by
  have := locate_spec npage
  rw [h] at this
  exact this.1

lemma locate_inj {n k : ℕ} (hn : locate n = some p) (hk : locate k = some p) : n = k := by
  have h1 := locate_spec n
  have h2 := locate_spec k
  rw [hn] at h1
  rw [hk] at h2
  exact h1.2.symm.trans h2.2

lemma blockStart_mono {i j : ℕ} (h : i ≤ j) : blockStart i ≤ blockStart j :=
  Nat.add_le_add_left (sum_le_sum_of_subset (range_mono h)) _

lemma EntPtr.Valid.index_lt (hp : p.Valid) : p.index < treePages := by
  cases p with
  | direct i => exact Nat.lt_of_lt_of_le hp (Nat.le_add_right _ _)
  | indirect i n =>
    have hnext : blockStart (i + 1) = blockStart i + span (i + 1) := by
      simp only [blockStart, sum_range_succ]
      omega
    have hmono : blockStart (i + 1) ≤ treePages := blockStart_mono hp.1
    have := hp.2
    simp only [EntPtr.index]
    omega

lemma locate_eq_none {npage : ℕ} : locate npage = none ↔ treePages ≤ npage := by
  have h := locate_spec npage
  cases hp : locate npage with
  | none =>
    rw [hp] at h
    exact ⟨fun _ => h, fun _ => rfl⟩
  | some p =>
    rw [hp] at h
    have := h.1.index_lt
    exact ⟨nofun, fun hle => by omega⟩

end Corey.Mem
