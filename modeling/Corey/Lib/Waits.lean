import Mathlib.Data.Fintype.Card
import Mathlib.Order.WellFounded

/-!
Waiting in circles, and schedules that let everyone have a turn.

Where finitely many parties wait for each other and none of them waits for itself through
others, some party does not wait. A party that begins to wait closes a circle only if the one it
waits for was waiting for it already. A schedule is fair if everyone has a turn again and again.
-/

namespace Corey.Waits

open Relation

variable {α : Type} {R S : α → α → Prop} {a b : α} {k : ℕ}

/-! ### Circles -/

/-- No one waits for itself, directly or through others. -/
def Acyclic (R : α → α → Prop) : Prop := ∀ a, ¬ TransGen R a a

lemma Acyclic.mono (h : Acyclic S) (hRS : ∀ x y, R x y → S x y) : Acyclic R :=
  fun a ha => h a (TransGen.mono hRS _ _ ha)

/-- A way along the old edges and a new one uses the new one or not. -/
lemma transGen_insert {x y : α} (h : TransGen (fun x y => R x y ∨ x = a ∧ y = b) x y) :
    TransGen R x y ∨ ReflTransGen R x a ∧ ReflTransGen R b y := by
  induction h with
  | single hxy =>
    rcases hxy with hxy | ⟨rfl, rfl⟩
    · exact .inl (.single hxy)
    · exact .inr ⟨.refl, .refl⟩
  | tail _ hyz ih =>
    rcases hyz with hyz | ⟨rfl, rfl⟩
    · rcases ih with ih | ⟨h1, h2⟩
      · exact .inl (ih.tail hyz)
      · exact .inr ⟨h1, h2.tail hyz⟩
    · rcases ih with ih | ⟨h1, -⟩
      · exact .inr ⟨ih.to_reflTransGen, .refl⟩
      · exact .inr ⟨h1, .refl⟩

/-- A new edge closes no circle unless there is a way back. -/
lemma Acyclic.insert (h : Acyclic R) (hback : ¬ ReflTransGen R b a) :
    Acyclic fun x y => R x y ∨ x = a ∧ y = b := by
  intro x hx
  rcases transGen_insert hx with hx | ⟨h1, h2⟩
  · exact h x hx
  · exact hback (h2.trans h1)

/-- Among finitely many someone waits for none of the others. -/
lemma Acyclic.exists_free [Finite α] (h : Acyclic R) {F : Set α} (hF : F.Nonempty) :
    ∃ a ∈ F, ∀ b ∈ F, ¬ R a b := by
  have : Std.Irrefl fun x y => TransGen R y x := ⟨h⟩
  have : IsTrans α fun x y => TransGen R y x := ⟨fun _ _ _ h1 h2 => h2.trans h1⟩
  obtain ⟨a, ha, hmin⟩ := (Finite.wellFounded_of_trans_of_irrefl fun x y => TransGen R y x).has_min
    F hF
  exact ⟨a, ha, fun b hb hab => hmin b hb (.single hab)⟩

/-! ### Schedules -/

/-- Everyone has a turn after every time. -/
def Fair (sch : ℕ → α) : Prop := ∀ a k, ∃ j ≥ k, sch j = a

/-- What holds of the state until `a` has its next turn holds when it has it. -/
lemma Fair.next_turn {sch : ℕ → α} (hfair : Fair sch) {P : ℕ → Prop} (a : α) (hk : P k)
    (hstep : ∀ j ≥ k, sch j ≠ a → P j → P (j + 1)) : ∃ j ≥ k, sch j = a ∧ P j := by
  classical
  obtain ⟨hge, hturn⟩ := Nat.find_spec (hfair a k)
  refine ⟨Nat.find (hfair a k), hge, hturn, ?_⟩
  have hall : ∀ d, k + d ≤ Nat.find (hfair a k) → P (k + d) := by
    intro d
    induction d with
    | zero => exact fun _ => hk
    | succ d ih =>
      intro hd
      refine hstep (k + d) (Nat.le_add_right k d) (fun heq => ?_) (ih (by omega))
      exact Nat.find_min (hfair a k) (by omega) ⟨Nat.le_add_right k d, heq⟩
  have hend := hall (Nat.find (hfair a k) - k) (by omega)
  rwa [Nat.add_sub_cancel' hge] at hend

/-- The rule for what must happen: while it has not, a rank goes down or stays, and it goes down
with the next turn of a party that is the same one as long as the rank is. -/
lemma eventually {sch : ℕ → α} {P : ℕ → ℕ → α → Prop} {G : ℕ → Prop}
    (hturn : ∀ j r a, P j r a → ∃ i ≥ j, sch i = a)
    (hstep : ∀ j r a, P j r a → G (j + 1) ∨ (∃ r' < r, ∃ a', P (j + 1) r' a') ∨
      sch j ≠ a ∧ P (j + 1) r a) {r : ℕ} (hk : P k r a) : ∃ j ≥ k, G j := by
  by_contra hno
  push Not at hno
  induction r using Nat.strong_induction_on generalizing k a with
  | _ r ih =>
    have hnext : ∀ j ≥ k, P j r a → sch j ≠ a ∧ P (j + 1) r a := by
      intro j hj hP
      rcases hstep j r a hP with hG | ⟨r', hr, a', hP'⟩ | hsame
      · exact absurd hG (hno _ (by omega))
      · exact (ih r' hr hP' fun i hi => hno i (by omega)).elim
      · exact hsame
    have hall : ∀ j ≥ k, P j r a := by
      intro j hj
      induction j, hj using Nat.le_induction with
      | base => exact hk
      | succ j hj ih => exact (hnext j hj ih).2
    obtain ⟨i, hi, ha⟩ := hturn k r a hk
    exact (hnext i hi (hall i hi)).1 ha

/-- A number that never grows stays the same in the end. -/
lemma exists_stable {f : ℕ → ℕ} (h : ∀ j ≥ k, f (j + 1) ≤ f j) : ∃ m ≥ k, ∀ j ≥ m, f j = f m := by
  have hmono : ∀ i j, k ≤ i → i ≤ j → f j ≤ f i := by
    intro i j hi hij
    induction j, hij using Nat.le_induction with
    | base => exact Nat.le_refl _
    | succ j hj ih => exact (h j (by omega)).trans ih
  classical
  have hex : ∃ n, ∃ j ≥ k, f j = n := ⟨f k, k, Nat.le_refl k, rfl⟩
  obtain ⟨m, hm, hmin⟩ := Nat.find_spec hex
  refine ⟨m, hm, fun j hj => Nat.le_antisymm (hmono m j hm hj) ?_⟩
  rw [hmin]
  exact Nat.find_min' hex ⟨j, by omega, rfl⟩

end Corey.Waits
