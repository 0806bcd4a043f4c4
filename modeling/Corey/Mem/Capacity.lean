import Corey.Mem.Forest
import Mathlib.Algebra.BigOperators.Ring.Finset

/-!
How many references there can be.

An entry takes room: a tree has three entries in its object and the others in its blocks, 170
to a page. So the references to one page are bounded by the size of the memory, and as long as
the memory is not larger than what the kernel can map at boot, a 32-bit counter of them cannot
fill up.
-/

namespace Corey.Mem

open Corey.Comp Finset

variable {ι : Type} [DecidableEq ι] {U : Finset Ppn} {T N : Finset ι} {s : Forest ι} {t u : ι}

/-- The pages of the 66 gigabytes that `bootpdplo` maps. -/
def maxPages : ℕ := 66 * 2 ^ 18

lemma PagetreeEntry.ledger_le (e : PagetreeEntry) (p : Ppn) : e.ledger (.ent p) ≤ 1 := by
  cases h : e.page with
  | none => simp [ledger_of_null h]
  | some q =>
    rw [ledger_of_page h, one_apply]
    split_ifs <;> omega

lemma Slot.ledger_le (s : Slot 0) (p : Ppn) : s.ledger (.ent p) ≤ 1 := by
  cases s with
  | ent e => exact e.ledger_le p

lemma Slot.ents_le : ∀ {l : ℕ} (s : Slot (l + 1)) (p : Ppn),
    (∀ q, 0 < s.ledger (.node q) → q ∈ U) →
    s.ledger (.ent p) ≤ width 0 * ∑ q ∈ U, s.ledger (.node q)
  | _, .null, _, _ => Nat.zero_le _
  | l, .block x f, p, hU => by
    have hx : x ∈ U := hU x (by simp [Slot.ledger, one_apply])
    have hone : ∑ q ∈ U, one (.node x) (.node q) = 1 := by
      simp [one_apply, hx]
    have hsum : ∑ q ∈ U, (Slot.block x f).ledger (.node q) =
        1 + ∑ i ∈ range (width l), ∑ q ∈ U, (f i).ledger (.node q) := by
      simp only [Slot.ledger, Pi.add_apply, Finset.sum_apply, sum_add_distrib, hone]
      rw [sum_comm]
    have hent : (Slot.block x f).ledger (.ent p) =
        ∑ i ∈ range (width l), (f i).ledger (.ent p) := by
      simp [Slot.ledger, one_apply, Finset.sum_apply]
    rw [hsum, hent]
    cases l with
    | zero =>
      have := sum_le_card_nsmul (range (width 0)) _ 1 fun i _ => (f i).ledger_le p
      simp only [card_range, smul_eq_mul] at this
      exact Nat.le_trans this (Nat.mul_le_mul_left _ (Nat.le_add_right _ _))
    | succ l =>
      have hle : ∀ i ∈ range (width (l + 1)),
          (f i).ledger (.ent p) ≤ width 0 * ∑ q ∈ U, (f i).ledger (.node q) := by
        intro i hi
        refine Slot.ents_le (f i) p fun q hq => hU q ?_
        have := single_le_sum (f := fun i => (f i).ledger (.node q)) (fun _ _ => Nat.zero_le _) hi
        simp only [Slot.ledger, Pi.add_apply, Finset.sum_apply]
        omega
      calc ∑ i ∈ range (width (l + 1)), (f i).ledger (.ent p)
          ≤ ∑ i ∈ range (width (l + 1)), width 0 * ∑ q ∈ U, (f i).ledger (.node q) := sum_le_sum hle
        _ = width 0 * ∑ i ∈ range (width (l + 1)), ∑ q ∈ U, (f i).ledger (.node q) :=
            (mul_sum _ _ _).symm
        _ ≤ _ := Nat.mul_le_mul_left _ (Nat.le_add_left _ _)

lemma Pagetree.ents_le (pt : Pagetree) (p : Ppn) (hU : ∀ q, 0 < pt.ledger (.node q) → q ∈ U) :
    pt.ledger (.ent p) ≤ directEntries + width 0 * ∑ q ∈ U, pt.ledger (.node q) := by
  have hdir : ∑ i ∈ range directEntries, (pt.ptDirect i).ledger (.ent p) ≤ directEntries := by
    have := sum_le_card_nsmul (range directEntries) _ 1 fun i _ => (pt.ptDirect i).ledger_le p
    simpa using this
  have hind : ∀ i ∈ range indirectEntries, (pt.ptIndir i).ledger (.ent p) ≤
      width 0 * ∑ q ∈ U, (pt.ptIndir i).ledger (.node q) := by
    intro i hi
    refine Slot.ents_le _ p fun q hq => hU q ?_
    have := single_le_sum (f := fun i => (pt.ptIndir i).ledger (.node q))
      (fun _ _ => Nat.zero_le _) hi
    simp only [Pagetree.ledger, Pi.add_apply, Finset.sum_apply]
    omega
  have hnodes : ∑ i ∈ range indirectEntries, ∑ q ∈ U, (pt.ptIndir i).ledger (.node q) ≤
      ∑ q ∈ U, pt.ledger (.node q) := by
    rw [sum_comm]
    refine sum_le_sum fun q _ => ?_
    simp only [Pagetree.ledger, Pi.add_apply, Finset.sum_apply]
    exact Nat.le_add_left _ _
  have hall := sum_le_sum hind
  rw [← mul_sum] at hall
  have hmul := Nat.mul_le_mul_left (width 0) hnodes
  simp only [Pagetree.ledger, Pi.add_apply, Finset.sum_apply] at hmul ⊢
  omega

lemma sum_count_eq_length {l : List Ppn} (h : ∀ p ∈ l, p ∈ U) :
    ∑ q ∈ U, l.count q = l.length := by
  induction l with
  | nil => simp
  | cons a l ih =>
    have ha : a ∈ U := h a (by simp)
    have ih := ih fun p hp => h p (by simp [hp])
    simp only [List.count_cons, beq_iff_eq, sum_add_distrib, ih, List.length_cons]
    simp [ha]

namespace Forest

omit [DecidableEq ι] in
/-- **References are bounded by memory.** `N` is the set of the trees that have anything. -/
lemma ents_le_capacity (hb : Balanced U s.mem (s.ledger T)) (hN : N ⊆ T)
    (hrest : ∀ t ∈ T, t ∉ N → (s.tree t).ledger = 0)
    (hroots : directEntries * N.card ≤ width 0 * s.hand.length) (p : Ppn) :
    s.ledger T (.ent p) ≤ width 0 * U.card := by
  have hnodeU : ∀ q, 0 < s.ledger T (.node q) → q ∈ U := fun q hq =>
    hb.mem_of_used (Or.inr (Or.inl hq))
  have hsumN : ∀ x : Use, ∑ t ∈ T, (s.tree t).ledger x = ∑ t ∈ N, (s.tree t).ledger x := by
    intro x
    refine (Finset.sum_subset hN fun t ht htN => ?_).symm
    rw [hrest t ht htN]
    rfl
  have htree : ∀ t ∈ N, (s.tree t).ledger (.ent p) ≤
      directEntries + width 0 * ∑ q ∈ U, (s.tree t).ledger (.node q) := by
    intro t ht
    refine Pagetree.ents_le _ p fun q hq => hnodeU q ?_
    have := Finset.single_le_sum (f := fun t => (s.tree t).ledger (.node q))
      (fun _ _ => Nat.zero_le _) (hN ht)
    rw [ledger_node, parents]
    omega
  have hall := Finset.sum_le_sum htree
  rw [Finset.sum_add_distrib, ← Finset.mul_sum, Finset.sum_comm] at hall
  simp only [Finset.sum_const, smul_eq_mul, ← hsumN] at hall
  -- every managed page is a block, in hand, or neither
  have hcount : ∑ q ∈ U, s.parents T q + s.hand.length ≤ U.card := by
    have hhand : ∀ q ∈ s.hand, q ∈ U := fun q hq =>
      hb.mem_of_used (Or.inr (Or.inr (by rw [ledger_held]; exact List.count_pos_iff.mpr hq)))
    rw [← sum_count_eq_length hhand, ← Finset.sum_add_distrib]
    have hone : ∀ q ∈ U, s.parents T q + s.hand.count q ≤ 1 := fun q hq => by
      have := (hb.page q).once
      simp only [ledger_node, ledger_held, hq, if_true] at this
      omega
    simpa using Finset.sum_le_sum hone
  have hmul := Nat.mul_le_mul_left (width 0) hcount
  rw [ledger_ent, entries]
  simp only [parents, Nat.mul_add] at hmul hall ⊢
  rw [Nat.mul_comm N.card] at hall
  omega

lemma width_mul_lt {n : ℕ} (h : n ≤ maxPages) : width 0 * n < word32 := by
  have := Nat.mul_le_mul_left (width 0) h
  exact Nat.lt_of_le_of_lt this (by decide)

lemma roomToCopy_of_capacity (ht : t ∈ T) (hu : u ∈ T) (hne : t ≠ u)
    (hpins : ∀ p, (s.mem.info p).piHwRef = 0)
    (hroots : directEntries * T.card ≤ width 0 * s.hand.length) (hU : U.card ≤ maxPages) :
    RoomToCopy U (s.rest₂ T t u) (s.tree t) s.mem := by
  intro d m hb hhw _ p
  have hl := ledger_update₂ (s := s) ht hu hne (s.tree t) d m
  rw [Function.update_eq_self] at hl
  have hcap := ents_le_capacity (s := { s with tree := Function.update s.tree u d, mem := m })
    (hl ▸ hb) (Finset.Subset.refl T) (fun v hv hnv => absurd hv hnv) hroots p
  rw [hl] at hcap
  rw [Memory.refs, hhw p, hpins p]
  exact Nat.lt_of_le_of_lt hcap (width_mul_lt hU)

end Forest

end Corey.Mem
