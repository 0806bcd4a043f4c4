import Mathlib.Algebra.BigOperators.Group.Finset.Basic

/-!
Merging many sorted lists into one.

A position is kept in each list. In every round the least of the elements at these positions is
taken, the first one if there are several, and its position moves on.
-/

open Function Finset

namespace Corey.KMerge

variable {α : Type} {gt : α → α → Bool} {le : α → α → Prop} {arrs : ℕ → List α} {n : ℕ}
  {pos : ℕ → ℕ}

/-- The least of the heads below `n`, and whose it is. -/
def pickMin (gt : α → α → Bool) (head : ℕ → Option α) : ℕ → Option (α × ℕ)
  | 0 => none
  | i + 1 =>
    match pickMin gt head i, head i with
    | r, none => r
    | none, some x => some (x, i)
    | some (m, j), some x => if gt m x then some (x, i) else some (m, j)

/-- `k` rounds of merging, from the given positions. -/
def mergeFrom (gt : α → α → Bool) (arrs : ℕ → List α) (n : ℕ) : ℕ → (ℕ → ℕ) → Option (List α)
  | 0, _ => some []
  | k + 1, pos =>
    match pickMin gt (fun i => (arrs i)[pos i]?) n with
    | none => none
    | some (x, i) =>
      (mergeFrom gt arrs n k (update pos i (pos i + 1))).map (x :: ·)

/-- What is picked is not more than any other head. -/
def Picked (le : α → α → Prop) (head : ℕ → Option α) (n : ℕ) : Option (α × ℕ) → Prop
  | none => ∀ i < n, head i = none
  | some (x, i) => i < n ∧ head i = some x ∧ ∀ j < n, ∀ y, head j = some y → le x y

lemma pickMin_spec (hgt : ∀ x y, gt x y = true ↔ ¬ le x y) (htotal : ∀ x y, le x y ∨ le y x)
    (htrans : ∀ x y z, le x y → le y z → le x z) (head : ℕ → Option α) (n : ℕ) :
    Picked le head n (pickMin gt head n) := by
  have hrefl : ∀ x, le x x := fun x => (htotal x x).elim id id
  induction n with
  | zero => exact fun i hi => absurd hi (Nat.not_lt_zero i)
  | succ n ih =>
    rw [pickMin]
    cases hn : head n with
    | none =>
      -- the list has come to its end
      cases hp : pickMin gt head n with
      | none =>
        rw [hp] at ih
        intro i hi
        rcases Nat.lt_succ_iff_lt_or_eq.mp hi with hlt | rfl
        · exact ih i hlt
        · exact hn
      | some r =>
        rw [hp] at ih
        obtain ⟨hi, hx, hleast⟩ := ih
        refine ⟨by omega, hx, fun j hj y hy => ?_⟩
        rcases Nat.lt_succ_iff_lt_or_eq.mp hj with hlt | rfl
        · exact hleast j hlt y hy
        · cases hn.symm.trans hy
    | some x =>
      cases hp : pickMin gt head n with
      | none =>
        rw [hp] at ih
        refine ⟨Nat.lt_succ_self n, hn, fun j hj y hy => ?_⟩
        rcases Nat.lt_succ_iff_lt_or_eq.mp hj with hlt | rfl
        · cases (ih j hlt).symm.trans hy
        · cases hn.symm.trans hy
          exact hrefl x
      | some r =>
        rw [hp] at ih
        obtain ⟨hi, hm, hleast⟩ := ih
        simp only
        by_cases hless : gt r.1 x = true
        · -- the new head is less
          rw [if_pos hless]
          have hxr : le x r.1 := (htotal r.1 x).resolve_left ((hgt _ _).mp hless)
          refine ⟨Nat.lt_succ_self n, hn, fun j hj y hy => ?_⟩
          rcases Nat.lt_succ_iff_lt_or_eq.mp hj with hlt | rfl
          · exact htrans x r.1 y hxr (hleast j hlt y hy)
          · cases hn.symm.trans hy
            exact hrefl x
        · rw [if_neg hless]
          have hrx : le r.1 x := by
            by_contra hno
            exact hless ((hgt _ _).mpr hno)
          refine ⟨by omega, hm, fun j hj y hy => ?_⟩
          rcases Nat.lt_succ_iff_lt_or_eq.mp hj with hlt | rfl
          · exact hleast j hlt y hy
          · cases hn.symm.trans hy
            exact hrx

def rest (arrs : ℕ → List α) (n : ℕ) (pos : ℕ → ℕ) : Multiset α :=
  ∑ i ∈ Finset.range n, ((arrs i).drop (pos i) : Multiset α)

/-- An element is taken from the list it is the head of. -/
lemma rest_update {x : α} {i : ℕ} (hi : i < n) (hx : (arrs i)[pos i]? = some x) :
    rest arrs n pos = x ::ₘ rest arrs n (update pos i (pos i + 1)) := by
  have hmem : i ∈ range n := mem_range.mpr hi
  have hothers : ∑ j ∈ (range n).erase i,
      ((arrs j).drop (update pos i (pos i + 1) j) : Multiset α) =
        ∑ j ∈ (range n).erase i, ((arrs j).drop (pos j) : Multiset α) :=
    sum_congr rfl fun j hj => by
      rw [update_of_ne (ne_of_mem_erase hj)]
  obtain ⟨hlt, hget⟩ := List.getElem?_eq_some_iff.mp hx
  rw [rest, rest, ← add_sum_erase _ _ hmem, ← add_sum_erase _ _ hmem, hothers,
    update_self, List.drop_eq_getElem_cons hlt, hget, ← Multiset.cons_coe,
    Multiset.cons_add]

/-- **Merging sorted lists sorts them.** As many rounds as there are elements left give all of
them, in order. -/
lemma mergeFrom_spec (hgt : ∀ x y, gt x y = true ↔ ¬ le x y) (htotal : ∀ x y, le x y ∨ le y x)
    (htrans : ∀ x y z, le x y → le y z → le x z) (hsorted : ∀ i < n, (arrs i).Pairwise le) :
    ∀ (k : ℕ) (pos : ℕ → ℕ), (rest arrs n pos).card = k →
      ∃ out, mergeFrom gt arrs n k pos = some out ∧ (out : Multiset α) = rest arrs n pos ∧
        out.Pairwise le
  | 0, pos, hk => ⟨[], rfl, (Multiset.card_eq_zero.mp hk).symm, .nil⟩
  | k + 1, pos, hk => by
    rw [mergeFrom]
    have hpick := pickMin_spec hgt htotal htrans (fun i => (arrs i)[pos i]?) n
    cases hp : pickMin gt (fun i => (arrs i)[pos i]?) n with
    | none =>
      -- then nothing is left
      rw [hp] at hpick
      have hzero : rest arrs n pos = 0 := sum_eq_zero fun i hi => by
        have hlen := List.getElem?_eq_none_iff.mp (hpick i (mem_range.mp hi))
        rw [List.drop_eq_nil_of_le hlen, Multiset.coe_nil]
      rw [hzero] at hk
      exact absurd hk (by simp)
    | some r =>
      obtain ⟨x, i⟩ := r
      rw [hp] at hpick
      obtain ⟨hi, hx, hleast⟩ := hpick
      have htake := rest_update hi hx
      rw [htake, Multiset.card_cons] at hk
      obtain ⟨out, hout, hperm, hsort⟩ := mergeFrom_spec hgt htotal htrans hsorted k
        (update pos i (pos i + 1)) (by omega)
      refine ⟨x :: out, by simp only [hout, Option.map_some], ?_, .cons (fun y hy => ?_) hsort⟩
      · rw [htake, ← hperm, Multiset.cons_coe]
      · -- what is left of a sorted list is not less than its head
        have hy' : y ∈ rest arrs n pos := by
          rw [htake, ← hperm]
          exact Multiset.mem_cons_of_mem hy
        obtain ⟨j, hj, hmem⟩ := Multiset.mem_sum.mp hy'
        obtain ⟨z, l, hzl⟩ := List.exists_cons_of_ne_nil (List.ne_nil_of_mem hmem)
        have hz : (arrs j)[pos j]? = some z := by
          rw [← List.head?_drop, hzl, List.head?_cons]
        have hxz := hleast j (mem_range.mp hj) z hz
        have hrest : (z :: l).Pairwise le := hzl ▸ (hsorted j (mem_range.mp hj)).drop
        rw [hzl] at hmem
        rcases List.mem_cons.mp hmem with rfl | hyl
        · exact hxz
        · exact htrans x z y hxz ((List.pairwise_cons.mp hrest).1 y hyl)

end Corey.KMerge
