import Mathlib.Algebra.Order.BigOperators.Group.Finset
import Corey.Lib.System

/-!
Threads that share a memory.

In every step one thread does one thing with the memory and with what it has of its own. A step
may also depend on a choice, such as the next call it makes. The memory is sequentially
consistent: the steps of a run come one after the other, in any order.
-/

open Function Finset

namespace Corey

variable {T M L C : Type}

structure Threads (T M L : Type) where
  mem : M
  loc : T → L

namespace Threads

variable {s s' : Threads T M L} {t u : T} {m : M} {l : L} {p : L → Bool}

section

variable [DecidableEq T]

/-- The state after a step of thread `t`. -/
def set (s : Threads T M L) (t : T) (m : M) (l : L) : Threads T M L where
  mem := m
  loc := update s.loc t l

@[simp] lemma set_mem : (s.set t m l).mem = m := rfl
@[simp] lemma set_loc_self : (s.set t m l).loc t = l := update_self _ _ _
@[simp] lemma set_loc_of_ne (h : u ≠ t) : (s.set t m l).loc u = s.loc u :=
  update_of_ne h _ _

lemma set_loc_eq : (s.set t m l).loc u = if u = t then l else s.loc u := by
  by_cases h : u = t
  · rw [h, set_loc_self, if_pos rfl]
  · rw [set_loc_of_ne h, if_neg h]

/-- All interleavings of threads, from what a thread does when it is its turn. -/
def interleaving (init : Threads T M L → Prop) (act : T → C → M → L → Option (M × L)) :
    System (Threads T M L) (T × C) where
  init := init
  step a s := (act a.1 a.2 s.mem (s.loc a.1)).map fun r => s.set a.1 r.1 r.2

variable {init : Threads T M L → Prop} {act : T → C → M → L → Option (M × L)}
  {ok : Threads T M L → T × C → Prop} {a : T × C}

lemma interleaving_step (h : (interleaving init act).step a s = some s') :
    ∃ m l, act a.1 a.2 s.mem (s.loc a.1) = some (m, l) ∧ s' = s.set a.1 m l := by
  obtain ⟨⟨m, l⟩, hact, rfl⟩ := Option.map_eq_some_iff.mp h
  exact ⟨m, l, hact, rfl⟩

/-- What holds at the start and is kept by every step of every thread holds throughout. -/
lemma invariant {I : Threads T M L → Prop} (h0 : ∀ s, init s → I s)
    (hstep : ∀ s t c m l, I s → ok s (t, c) → act t c s.mem (s.loc t) = some (m, l) →
      I (s.set t m l))
    (h : (interleaving init act).Reach ok s) : I s := by
  refine h.invariant h0 fun s a s' hI hok hs => ?_
  obtain ⟨m, l, hact, rfl⟩ := interleaving_step hs
  exact hstep s a.1 a.2 m l hI hok hact

/-- Steps come to an end if each costs the thread more than it gives to all others. -/
lemma length_le_sum [Fintype T] (test : M → L → Bool) (left : M → L → ℕ)
    (hact : ∀ t c m l m' l', test m l = true → act t c m l = some (m', l') →
      ∃ d, left m' l' + Fintype.card T * d < left m l ∧ ∀ k, left m' k ≤ left m k + d)
    {as : List (T × C)}
    (h : (interleaving init act).run (fun s a => test s.mem (s.loc a.1)) as s = some s') :
    as.length ≤ ∑ t, left s.mem (s.loc t) := by
  induction as generalizing s with
  | nil => exact Nat.zero_le _
  | cons a as ih =>
    simp only [System.run] at h
    split_ifs at h with htest
    obtain ⟨s1, hs1, hrun⟩ := Option.bind_eq_some_iff.mp h
    obtain ⟨m, l, hact', rfl⟩ := interleaving_step hs1
    obtain ⟨d, hlt, hle⟩ := hact _ _ _ _ _ _ htest hact'
    have hothers : ∑ t ∈ univ.erase a.1, left m ((s.set a.1 m l).loc t) ≤
        ∑ t ∈ univ.erase a.1, left s.mem (s.loc t) + Fintype.card T * d := by
      refine (sum_le_sum (g := fun t => left s.mem (s.loc t) + d) fun t ht => ?_).trans ?_
      · rw [set_loc_of_ne (ne_of_mem_erase ht)]
        exact hle _
      · rw [sum_add_distrib, sum_const, Nat.nsmul_eq_mul]
        exact Nat.add_le_add_left (Nat.mul_le_mul_right d (card_le_univ _)) _
    have hsum := ih hrun
    rw [← add_sum_erase _ _ (mem_univ a.1)] at hsum ⊢
    rw [set_mem, set_loc_self] at hsum
    rw [List.length_cons]
    omega

lemma set_self (s : Threads T M L) (t : T) : s.set t s.mem (s.loc t) = s := by
  rw [set, update_eq_self]

lemma set_set {m' : M} {l' : L} : (s.set t m l).set t m' l' = s.set t m' l' := by
  rw [set, set, set, update_idem]

/-- What `k` steps of one thread lead to. -/
def solo (act : T → C → M → L → Option (M × L)) (t : T) (c : C) : ℕ → M → L → Option (M × L)
  | 0, m, l => some (m, l)
  | k + 1, m, l => (act t c m l).bind fun r => solo act t c k r.1 r.2

/-- One thread may run alone for a while. -/
lemma reachable_solo {c : C} : ∀ (k : ℕ) {s : Threads T M L},
    (interleaving init act).Reachable s → solo act t c k s.mem (s.loc t) = some (m, l) →
      (interleaving init act).Reachable (s.set t m l)
  | 0, s, h, hk => by
    cases hk
    rw [set_self]
    exact h
  | k + 1, s, h, hk => by
    obtain ⟨⟨m1, l1⟩, hact, hk⟩ := Option.bind_eq_some_iff.mp hk
    have hstep : (interleaving init act).step (t, c) s = some (s.set t m1 l1) := by
      simp only [interleaving, hact, Option.map_some]
    have hrest := reachable_solo k (h.next trivial hstep) (by rw [set_mem, set_loc_self]; exact hk)
    rwa [set_set] at hrest

/-- A state as another system sees it. -/
def map {M' L' : Type} (f : M → M') (g : L → L') (s : Threads T M L) : Threads T M' L' where
  mem := f s.mem
  loc t := g (s.loc t)

/-- The rule for threads that do what others do, and something besides: what they reach is
reached by the others. -/
lemma reachable_map {M' L' C' : Type} {init' : Threads T M' L' → Prop}
    {act' : T → C' → M' → L' → Option (M' × L')} {f : M → M'} {g : L → L'}
    (h0 : ∀ s, init s → init' (s.map f g))
    (hstep : ∀ t c m l m1 l1, act t c m l = some (m1, l1) →
      (f m1 = f m ∧ g l1 = g l) ∨ ∃ c', act' t c' (f m) (g l) = some (f m1, g l1))
    (h : (interleaving init act).Reachable s) :
    (interleaving init' act').Reachable (s.map f g) := by
  have hset : ∀ (s : Threads T M L) t m l, (s.set t m l).map f g = (s.map f g).set t (f m) (g l) :=
    fun s t m l => by
      simp only [map, set, mk.injEq, true_and]
      exact comp_update g s.loc t l
  refine invariant (I := fun s => (interleaving init' act').Reachable (s.map f g))
    (fun s hs => .start (h0 s hs)) (fun s t c m l hI _ hact => ?_) h
  rw [hset]
  rcases hstep t c _ _ _ _ hact with ⟨hm, hl⟩ | ⟨c', hact'⟩
  · rw [hm, hl]
    exact (set_self (s.map f g) t).symm ▸ hI
  · refine hI.next trivial (a := (t, c')) ?_
    simp only [interleaving, map, hact', Option.map_some]

end

/-! ### Counting threads -/

variable [Fintype T]

/-- The threads whose own state meets a condition. -/
def count (p : L → Bool) (s : Threads T M L) : ℕ := (Finset.univ.filter fun t => p (s.loc t)).card

lemma count_le_card : s.count p ≤ Fintype.card T := card_le_univ _

lemma count_eq_zero : s.count p = 0 ↔ ∀ t, p (s.loc t) = false := by
  rw [count, card_eq_zero, filter_eq_empty_iff]
  simp only [mem_univ, true_imp_iff, Bool.not_eq_true]

/-- Nothing is counted while all threads are at the same place, as at the start. -/
lemma count_of_all (h : ∀ t, s.loc t = l) (hp : p l = false) : s.count p = 0 :=
  count_eq_zero.mpr fun t => by rw [h t, hp]

lemma count_pos (h : p (s.loc t) = true) : 0 < s.count p :=
  card_pos.mpr ⟨t, mem_filter.mpr ⟨mem_univ t, h⟩⟩

/-- If one thread is not counted, not all are. -/
lemma count_lt_card (h : p (s.loc t) = false) : s.count p < Fintype.card T :=
  card_lt_univ_of_notMem (x := t) fun ht =>
    Bool.false_ne_true (h.symm.trans (mem_filter.mp ht).2)

/-- A step changes the count by the thread that takes it. -/
lemma count_set [DecidableEq T] :
    (s.set t m l).count p + (p (s.loc t)).toNat = s.count p + (p l).toNat := by
  have hothers : ∀ (f : T → L), (univ.filter fun u => p (f u)).card =
      ((univ.erase t).filter fun u => p (f u)).card + (p (f t)).toNat := fun f => by
    rw [← insert_erase (mem_univ t), filter_insert, erase_insert_eq_erase, erase_idem]
    cases hp : p (f t) with
    | false => simp
    | true => simp
  have hsame : (univ.erase t).filter (fun u => p ((s.set t m l).loc u)) =
      (univ.erase t).filter fun u => p (s.loc u) :=
    filter_congr fun u hu => by rw [set_loc_of_ne (ne_of_mem_erase hu)]
  rw [count, count, hothers, hothers s.loc, hsame, set_loc_self]
  omega

end Threads

end Corey
