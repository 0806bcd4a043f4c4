import Mathlib.Algebra.Order.BigOperators.Group.Finset
import Corey.Lib.KMerge
import Corey.Metis.Split

/-!
How MapReduce merges its results (`pkg/metis/mr-sched.c`).

Every reduce task leaves a sorted array. In each round of the merge phase the arrays are dealt out
to the merge CPUs, and each CPU merges its own into the first of them. The number of arrays of the
next round is computed from the number of arrays of this round, and not from the number of CPUs
that have left one.
-/

open Function Finset Multiset List

namespace Corey.Metis

variable {K V : Type}

/-! ### The phase -/

structure KeyVal (K V : Type) where
  key : K
  val : V
  deriving DecidableEq

/-- What `key_cmp` and `out_cmp` have to be for sorting to make sense. -/
structure Comparison (α : Type) where
  cmp : α → α → ℤ
  total : ∀ a b, cmp a b ≤ 0 ∨ cmp b a ≤ 0
  trans : ∀ a b c, cmp a b ≤ 0 → cmp b c ≤ 0 → cmp a c ≤ 0

/-- What the merge reads of `mr_state.mr_fixed`. -/
structure Order (K V : Type) where
  keyCmp : Comparison K
  outCmp : Option (Comparison (KeyVal K V)) := none

/-- The comparison of the output if there is one, or else of the keys. -/
def Order.cmp (o : Order K V) (a b : KeyVal K V) : ℤ :=
  match o.outCmp with
  | none => o.keyCmp.cmp a.key b.key
  | some c => c.cmp a b

/-- `keyval_arr_t`. An array that has been freed keeps its length; a null pointer is an array
without elements. -/
structure KeyvalArr (K V : Type) where
  len : ℕ
  arr : Option (List (KeyVal K V))

/-- The elements below the length, if all of them can be read. -/
def KeyvalArr.contents (a : KeyvalArr K V) : Option (List (KeyVal K V)) :=
  if a.len = 0 then some []
  else a.arr.bind fun l => if a.len ≤ l.length then some (l.take a.len) else none

/-- A second `free` is not allowed. -/
def KeyvalArr.free (a : KeyvalArr K V) : Option (KeyvalArr K V) :=
  a.arr.map fun _ => { a with arr := none }

abbrev Results (K V : Type) := ℕ → KeyvalArr K V

def nrTasks (mergeTasks nrMergeCpus lcpu : ℕ) : ℕ :=
  mergeTasks / nrMergeCpus + if lcpu < mergeTasks % nrMergeCpus then 1 else 0

/-- The key/value pairs of all arrays of a CPU are merged into the first one. -/
def mergeArrays (o : Order K V) (nrMergeCpus lcpu nrTasks : ℕ) (kvArr : Results K V) :
    Option (Results K V) :=
  let nrKeyvals := ∑ i ∈ Finset.range nrTasks, (kvArr (lcpu + i * nrMergeCpus)).len
  if nrKeyvals = 0 then some kvArr
  else if ∀ i < nrTasks, (kvArr (lcpu + i * nrMergeCpus)).contents.isSome then do
    let resArr ← KMerge.mergeFrom (fun a b => 0 < o.cmp a b)
      (fun i => (kvArr (lcpu + i * nrMergeCpus)).contents.getD []) nrTasks nrKeyvals fun _ => 0
    let _ ← (kvArr lcpu).free
    some (update kvArr lcpu ⟨u32 nrKeyvals, some resArr⟩)
  else none

def freeOthers (nrMergeCpus lcpu : ℕ) : ℕ → Results K V → Option (Results K V)
  | 0, kvArr => some kvArr
  | i + 1, kvArr => do
    let kvArr ← freeOthers nrMergeCpus lcpu i kvArr
    if i = 0 then some kvArr
    else do
      let a ← (kvArr (lcpu + i * nrMergeCpus)).free
      some (update kvArr (lcpu + i * nrMergeCpus) a)

def mergeWorker (o : Order K V) (mergeTasks nrMergeCpus lcpu : ℕ) (kvArr : Results K V) :
    Option (Results K V) := do
  let n := nrTasks mergeTasks nrMergeCpus lcpu
  let kvArr ← mergeArrays o nrMergeCpus lcpu n kvArr
  freeOthers nrMergeCpus lcpu n kvArr

/-- `run_mr_task(MERGE)`: the workers in some order. -/
def runWorkers (o : Order K V) (mergeTasks nrMergeCpus : ℕ) :
    List ℕ → Results K V → Option (Results K V)
  | [], kvArr => some kvArr
  | lcpu :: lcpus, kvArr => do
    let kvArr ← mergeWorker o mergeTasks nrMergeCpus lcpu kvArr
    runWorkers o mergeTasks nrMergeCpus lcpus kvArr

def nextTasks (mergeTasks nrMergeCpus : ℕ) : ℕ := min (mergeTasks / 2) nrMergeCpus

/-- The loop of `run_mr` over the rounds, which may not have ended when the fuel has. Round `r`
runs its workers in the order `order r`. -/
def mergeRounds (o : Order K V) (order : ℕ → ℕ → List ℕ) :
    ℕ → ℕ → ℕ → ℕ → Results K V → Option (Results K V)
  | 0, _, _, _, _ => none
  | fuel + 1, r, mergeTasks, nrMergeCpus, kvArr => do
    let kvArr ← runWorkers o mergeTasks nrMergeCpus (order r nrMergeCpus) kvArr
    if 1 < nextTasks mergeTasks nrMergeCpus ∧ 0 < nrMergeCpus / 2 then
      mergeRounds o order fuel (r + 1) (nextTasks mergeTasks nrMergeCpus) (nrMergeCpus / 2) kvArr
    else some kvArr

/-- The loop before it: the number of CPUs is halved until there are fewer than arrays. -/
def halveCpus (mergeTasks : ℕ) : ℕ → ℕ → Option ℕ
  | 0, _ => none
  | fuel + 1, nrMergeCpus =>
    if mergeTasks ≤ nrMergeCpus then halveCpus mergeTasks fuel (nrMergeCpus / 2)
    else some nrMergeCpus

def mergePhase (o : Order K V) (order : ℕ → ℕ → List ℕ) (fuel reduceTasks nrCpus : ℕ)
    (kvArr : Results K V) : Option (Results K V) := do
  let nrMergeCpus ← halveCpus reduceTasks fuel nrCpus
  mergeRounds o order fuel 0 reduceTasks nrMergeCpus kvArr

/-! ### The arrays that get through -/

/-- The numbers of arrays and of CPUs, round by round. -/
def roundSizes : ℕ → ℕ → ℕ → List (ℕ × ℕ)
  | 0, _, _ => []
  | fuel + 1, mergeTasks, nrMergeCpus =>
    (mergeTasks, nrMergeCpus) ::
      if 1 < nextTasks mergeTasks nrMergeCpus ∧ 0 < nrMergeCpus / 2 then
        roundSizes fuel (nextTasks mergeTasks nrMergeCpus) (nrMergeCpus / 2)
      else []

/-- Array `i` is merged in every round, at last into array 0. -/
def reaches : List (ℕ × ℕ) → ℕ → Bool
  | [], i => i = 0
  | (mergeTasks, nrMergeCpus) :: sizes, i => i < mergeTasks && reaches sizes (i % nrMergeCpus)

/-- The sizes of the rounds that are run for the reduce tasks on the CPUs. -/
def phaseSizes (reduceTasks nrCpus : ℕ) : List (ℕ × ℕ) :=
  match halveCpus reduceTasks (nrCpus + 1) nrCpus with
  | none => []
  | some nrMergeCpus => roundSizes (nrCpus + 1) reduceTasks nrMergeCpus

/-! ### One worker -/

variable {o : Order K V} {kvArr : Results K V} {a : KeyvalArr K V} {l : List (KeyVal K V)}
  {nr lcpu n tasks : ℕ} {c : ℕ → List (KeyVal K V)} {M : ℕ → Multiset (KeyVal K V)}
  {sizes : List (ℕ × ℕ)} {order : ℕ → ℕ → List ℕ}

def Order.le (o : Order K V) (a b : KeyVal K V) : Prop := o.cmp a b ≤ 0

lemma Order.le_total (o : Order K V) (a b : KeyVal K V) : o.le a b ∨ o.le b a := by
  rw [Order.le, Order.le, Order.cmp, Order.cmp]
  cases o.outCmp with
  | none => exact o.keyCmp.total a.key b.key
  | some c => exact c.total a b

lemma Order.le_trans (o : Order K V) (a b c : KeyVal K V) (hab : o.le a b) (hbc : o.le b c) :
    o.le a c := by
  rw [Order.le, Order.cmp] at *
  cases hout : o.outCmp with
  | none =>
    simp only [hout] at hab hbc
    exact o.keyCmp.trans a.key b.key c.key hab hbc
  | some d =>
    simp only [hout] at hab hbc
    exact d.trans a b c hab hbc

structure Holds (a : KeyvalArr K V) (l : List (KeyVal K V)) : Prop where
  small : a.len < 2 ^ 32
  arr : ∃ full, a.arr = some full ∧ a.len ≤ full.length ∧ full.take a.len = l

lemma Holds.length_eq (h : Holds a l) : l.length = a.len := by
  obtain ⟨full, -, hle, rfl⟩ := h.arr
  rw [length_take, Nat.min_eq_left hle]

lemma Holds.contents_eq (h : Holds a l) : a.contents = some l := by
  obtain ⟨full, hfull, hle, rfl⟩ := h.arr
  rw [KeyvalArr.contents]
  split_ifs with hzero
  · rw [hzero, take_zero]
  · rw [hfull, Option.bind_some, if_pos hle]

lemma Holds.free_eq (h : Holds a l) : a.free = some { a with arr := none } := by
  obtain ⟨full, hfull, -⟩ := h.arr
  rw [KeyvalArr.free, hfull, Option.map_some]

/-- Of what a worker has merged the array keeps as many elements as its length says. -/
def kept (full : List (KeyVal K V)) : List (KeyVal K V) := full.take (u32 full.length)

lemma mergeArrays_spec (hn : 0 < n)
    (hc : ∀ i < n, Holds (kvArr (lcpu + i * nr)) (c i) ∧ (c i).Pairwise o.le) :
    ∃ kvArr', mergeArrays o nr lcpu n kvArr = some kvArr' ∧ (∀ j ≠ lcpu, kvArr' j = kvArr j) ∧
      ∃ full : List (KeyVal K V), full.Pairwise o.le ∧
        (full : Multiset (KeyVal K V)) = ∑ i ∈ Finset.range n, (c i : Multiset (KeyVal K V)) ∧
        Holds (kvArr' lcpu) (kept full) := by
  have hself : Holds (kvArr lcpu) (c 0) := by
    have := (hc 0 hn).1
    rwa [Nat.zero_mul, Nat.add_zero] at this
  have hcount : ∑ i ∈ Finset.range n, (kvArr (lcpu + i * nr)).len =
      (∑ i ∈ Finset.range n, (c i : Multiset (KeyVal K V))).card := by
    rw [Multiset.card_sum]
    exact Finset.sum_congr rfl fun i hi =>
      ((hc i (Finset.mem_range.mp hi)).1.length_eq).symm
  rw [mergeArrays]
  simp only [hcount]
  by_cases hzero : (∑ i ∈ Finset.range n, (c i : Multiset (KeyVal K V))).card = 0
  · -- nothing to merge
    rw [if_pos hzero]
    have hsum := Multiset.card_eq_zero.mp hzero
    refine ⟨kvArr, rfl, fun _ _ => rfl, [], .nil, hsum.symm, ?_⟩
    have hnil : c 0 = [] := by
      have hle : (c 0 : Multiset (KeyVal K V)) ≤ _ :=
        Finset.single_le_sum (fun i _ => Multiset.zero_le (c i : Multiset (KeyVal K V)))
          (Finset.mem_range.mpr hn)
      rw [hsum, Multiset.le_zero, Multiset.coe_eq_zero] at hle
      exact hle
    rw [hnil] at hself
    exact hself
  · rw [if_neg hzero, if_pos fun i hi => by rw [(hc i hi).1.contents_eq]; rfl]
    have hrest : KMerge.rest (fun i => (kvArr (lcpu + i * nr)).contents.getD []) n (fun _ => 0) =
        ∑ i ∈ Finset.range n, (c i : Multiset (KeyVal K V)) :=
      Finset.sum_congr rfl fun i hi => by
        simp only [(hc i (Finset.mem_range.mp hi)).1.contents_eq, Option.getD_some, List.drop_zero]
    have hgt : ∀ x y, decide (0 < o.cmp x y) = true ↔ ¬ o.le x y := fun x y => by
      rw [decide_eq_true_eq, Order.le, not_le]
    have hsorted : ∀ i < n, ((kvArr (lcpu + i * nr)).contents.getD []).Pairwise o.le :=
      fun i hi => by
        rw [(hc i hi).1.contents_eq]
        exact (hc i hi).2
    obtain ⟨full, hfull, hperm, hsort⟩ := KMerge.mergeFrom_spec hgt o.le_total o.le_trans hsorted _
      (fun _ => 0) (congrArg Multiset.card hrest)
    rw [hrest] at hperm
    have hlen : (∑ i ∈ Finset.range n, (c i : Multiset (KeyVal K V))).card = full.length := by
      rw [← hperm, Multiset.coe_card]
    refine ⟨update kvArr lcpu ⟨u32 full.length, some full⟩, ?_, fun j hj => ?_, full,
      hsort, hperm, ?_⟩
    · rw [hfull, hself.free_eq, hlen]
      rfl
    · exact update_of_ne hj _ _
    · rw [update_self]
      exact ⟨Nat.mod_lt _ (by decide), full, rfl, Nat.mod_le _ _, rfl⟩

lemma freeOthers_spec (hnr : 0 < nr) :
    ∀ (n : ℕ) {kvArr : Results K V}, (∀ i, 0 < i → i < n → (kvArr (lcpu + i * nr)).arr ≠ none) →
      ∃ kvArr', freeOthers nr lcpu n kvArr = some kvArr' ∧
        ∀ j, (∀ i, 0 < i → i < n → j ≠ lcpu + i * nr) → kvArr' j = kvArr j
  | 0, kvArr, _ => ⟨kvArr, rfl, fun _ _ => rfl⟩
  | i + 1, kvArr, h => by
    obtain ⟨kv1, hfree, hsame⟩ := freeOthers_spec hnr i fun k h1 h2 => h k h1 (by omega)
    rw [freeOthers, hfree]
    by_cases hi : i = 0
    · subst hi
      exact ⟨kv1, rfl, fun j hj => hsame j fun k h1 h2 => by omega⟩
    · -- the array has not been freed before
      have hnew : kv1 (lcpu + i * nr) = kvArr (lcpu + i * nr) := hsame _ fun k h1 h2 heq => by
        have := Nat.eq_of_mul_eq_mul_right hnr (Nat.add_left_cancel heq)
        omega
      obtain ⟨full, hfull⟩ := Option.ne_none_iff_exists'.mp (h i (Nat.pos_of_ne_zero hi) (by omega))
      refine ⟨update kv1 (lcpu + i * nr) { kv1 (lcpu + i * nr) with arr := none }, ?_,
        fun j hj => ?_⟩
      · simp only [Option.bind_eq_bind, Option.bind_some, if_neg hi, KeyvalArr.free, hnew, hfull,
          Option.map_some]
      · rw [update_of_ne (hj i (Nat.pos_of_ne_zero hi) (by omega))]
        exact hsame j fun k h1 h2 => hj k h1 (by omega)

lemma lt_nrTasks (hnr : 0 < nr) (hlcpu : lcpu < nr) (i : ℕ) :
    i < nrTasks tasks nr lcpu ↔ lcpu + i * nr < tasks := by
  have hdiv := Nat.div_add_mod tasks nr
  have hmod := Nat.mod_lt tasks hnr
  rw [nrTasks]
  rcases Nat.lt_trichotomy i (tasks / nr) with hlt | heq | hgt
  · have hmul : (i + 1) * nr ≤ tasks / nr * nr := Nat.mul_le_mul_right nr hlt
    rw [Nat.add_mul, Nat.mul_comm (tasks / nr)] at hmul
    refine iff_of_true ?_ (by omega)
    split_ifs <;> omega
  · rw [heq, Nat.mul_comm (tasks / nr)]
    split_ifs <;> omega
  · have hmul : (tasks / nr + 1) * nr ≤ i * nr := Nat.mul_le_mul_right nr hgt
    rw [Nat.add_mul, Nat.mul_comm (tasks / nr)] at hmul
    refine iff_of_false ?_ (by omega)
    split_ifs <;> omega

/-- What the arrays of one CPU have together. -/
def share (c : ℕ → List (KeyVal K V)) (tasks nr lcpu : ℕ) : Multiset (KeyVal K V) :=
  ∑ j ∈ (Finset.range tasks).filter (· % nr = lcpu), (c j : Multiset (KeyVal K V))

lemma share_eq (hnr : 0 < nr) (hlcpu : lcpu < nr) : share c tasks nr lcpu =
      ∑ i ∈ Finset.range (nrTasks tasks nr lcpu), (c (lcpu + i * nr) : Multiset (KeyVal K V)) := by
  rw [share]
  symm
  refine Finset.sum_nbij (fun i => lcpu + i * nr) (fun i hi => ?_) (fun i _ k _ heq => ?_)
    (fun j hj => ?_) fun _ _ => rfl
  · rw [Finset.mem_filter, Finset.mem_range, Nat.add_mul_mod_self_right, Nat.mod_eq_of_lt hlcpu]
    exact ⟨(lt_nrTasks hnr hlcpu i).mp (Finset.mem_range.mp hi), rfl⟩
  · exact Nat.eq_of_mul_eq_mul_right hnr (Nat.add_left_cancel heq)
  · rw [Finset.mem_coe, Finset.mem_filter, Finset.mem_range] at hj
    have hj' : lcpu + j / nr * nr = j := by
      rw [← hj.2, Nat.mul_comm]
      exact Nat.mod_add_div j nr
    refine ⟨j / nr, ?_, hj'⟩
    rw [Finset.mem_coe, Finset.mem_range, lt_nrTasks hnr hlcpu, hj']
    exact hj.1

/-- A CPU has merged its arrays into its first one. -/
def Merged (o : Order K V) (a : KeyvalArr K V) (M : Multiset (KeyVal K V)) : Prop :=
  ∃ full : List (KeyVal K V), full.Pairwise o.le ∧ (full : Multiset (KeyVal K V)) = M ∧
    Holds a (kept full)

lemma mergeWorker_spec (hlcpu : lcpu < nr) (hnr : nr ≤ tasks)
    (hc : ∀ j < tasks, j % nr = lcpu → Holds (kvArr j) (c j) ∧ (c j).Pairwise o.le) :
    ∃ kvArr', mergeWorker o tasks nr lcpu kvArr = some kvArr' ∧
      (∀ j, j % nr ≠ lcpu → kvArr' j = kvArr j) ∧
        Merged o (kvArr' lcpu) (share c tasks nr lcpu) := by
  have hpos : 0 < nr := Nat.zero_lt_of_lt hlcpu
  have hmine : ∀ i, (lcpu + i * nr) % nr = lcpu := fun i => by
    rw [Nat.add_mul_mod_self_right, Nat.mod_eq_of_lt hlcpu]
  have hfirst : 0 < nrTasks tasks nr lcpu := by
    rw [lt_nrTasks hpos hlcpu]
    omega
  obtain ⟨kv1, hmerge, hsame, full, hsort, hperm, hholds⟩ := mergeArrays_spec
    (c := fun i => c (lcpu + i * nr)) hfirst fun i hi =>
      hc _ ((lt_nrTasks hpos hlcpu i).mp hi) (hmine i)
  have hlater : ∀ i, 0 < i → lcpu + i * nr ≠ lcpu := fun i hi heq => by
    have := Nat.mul_pos hi hpos
    omega
  have hthere : ∀ i, 0 < i → i < nrTasks tasks nr lcpu → (kv1 (lcpu + i * nr)).arr ≠ none :=
    fun i h1 h2 => by
      rw [hsame _ (hlater i h1)]
      obtain ⟨l, hl, -⟩ := (hc _ ((lt_nrTasks hpos hlcpu i).mp h2) (hmine i)).1.arr
      rw [hl]
      nofun
  obtain ⟨kv2, hfree, hrest⟩ := freeOthers_spec hpos (nrTasks tasks nr lcpu) hthere
  refine ⟨kv2, ?_, fun j hj => ?_, full, hsort, ?_, ?_⟩
  · rw [mergeWorker, hmerge]
    exact hfree
  · rw [hrest j fun i _ _ heq => hj (heq ▸ hmine i)]
    refine hsame j ?_
    rintro rfl
    exact hj (Nat.mod_eq_of_lt hlcpu)
  · rw [hperm, share_eq hpos hlcpu]
  · rw [hrest lcpu fun i h1 _ heq => hlater i h1 heq.symm]
    exact hholds

lemma runWorkers_spec (hnr : nr ≤ tasks) :
    ∀ (lcpus : List ℕ) {kvArr : Results K V}, lcpus.Nodup → (∀ x ∈ lcpus, x < nr) →
      (∀ j < tasks, j % nr ∈ lcpus → Holds (kvArr j) (c j) ∧ (c j).Pairwise o.le) →
      ∃ kvArr', runWorkers o tasks nr lcpus kvArr = some kvArr' ∧
        (∀ j, j % nr ∉ lcpus → kvArr' j = kvArr j) ∧
        ∀ x ∈ lcpus, Merged o (kvArr' x) (share c tasks nr x)
  | [], kvArr, _, _, _ => ⟨kvArr, rfl, fun _ _ => rfl, fun x hx => absurd hx List.not_mem_nil⟩
  | x :: lcpus, kvArr, hnodup, hlt, hc => by
    obtain ⟨hx, hnodup⟩ := List.nodup_cons.mp hnodup
    have hxlt := hlt x List.mem_cons_self
    obtain ⟨kv1, hone, hsame, hmerged⟩ := mergeWorker_spec hxlt hnr fun j hj hjx =>
      hc j hj (by rw [hjx]; exact List.mem_cons_self)
    have hc1 : ∀ j < tasks, j % nr ∈ lcpus → Holds (kv1 j) (c j) ∧ (c j).Pairwise o.le :=
      fun j hj hjl => by
        rw [hsame j fun heq => hx (heq ▸ hjl)]
        exact hc j hj (List.mem_cons_of_mem x hjl)
    obtain ⟨kv2, hrest, hsame2, hmerged2⟩ := runWorkers_spec hnr lcpus hnodup
      (fun y hy => hlt y (List.mem_cons_of_mem x hy)) hc1
    refine ⟨kv2, ?_, fun j hj => ?_, fun y hy => ?_⟩
    · rw [runWorkers, hone]
      exact hrest
    · rw [List.mem_cons, not_or] at hj
      rw [hsame2 j hj.2, hsame j hj.1]
    · rcases List.mem_cons.mp hy with rfl | hy
      · rw [hsame2 y (by rwa [Nat.mod_eq_of_lt hxlt])]
        exact hmerged
      · exact hmerged2 y hy

/-! ### What a length of 32 bits cuts off -/

/-- Nothing is missing, unless there is more than can be counted. -/
structure Cut (A M : Multiset (KeyVal K V)) : Prop where
  le : A ≤ M
  eq : M.card < 2 ^ 32 → A = M

lemma Cut.trans {A M N : Multiset (KeyVal K V)} (h : Cut A M) (h' : Cut M N) : Cut A N :=
  ⟨h.le.trans h'.le, fun hN => by
    have hM := h'.eq hN
    subst hM
    exact h.eq hN⟩

lemma Cut.sum {A : ℕ → Multiset (KeyVal K V)} {s : Finset ℕ} (h : ∀ i ∈ s, Cut (A i) (M i)) :
    Cut (∑ i ∈ s, A i) (∑ i ∈ s, M i) := by
  refine ⟨sum_le_sum fun i hi => (h i hi).le, fun hlt => sum_congr rfl ?_⟩
  intro i hi
  have hle : M i ≤ ∑ i ∈ s, M i := single_le_sum (fun j _ => zero_le (M j)) hi
  exact (h i hi).eq ((card_le_card hle).trans_lt hlt)

lemma cut_kept (full : List (KeyVal K V)) : Cut (kept full : Multiset (KeyVal K V)) full := by
  refine ⟨(take_sublist _ full).subperm, fun hlt => ?_⟩
  rw [coe_card] at hlt
  rw [kept, u32, Nat.mod_eq_of_lt hlt, take_length]

/-! ### All rounds -/

/-- What the arrays below `n` have together that get through. -/
def carried (sizes : List (ℕ × ℕ)) (n : ℕ) (M : ℕ → Multiset (KeyVal K V)) :
    Multiset (KeyVal K V) :=
  ∑ i ∈ (Finset.range n).filter (reaches sizes · = true), M i

lemma carried_nil (hn : 0 < n) : carried [] n M = M 0 := by
  have hzero : (Finset.range n).filter (reaches [] · = true) = {0} := by
    ext i
    rw [Finset.mem_filter, Finset.mem_range, Finset.mem_singleton, reaches, decide_eq_true_eq]
    omega
  rw [carried, hzero, Finset.sum_singleton]

lemma carried_cons (sizes : List (ℕ × ℕ)) (hnr : 0 < nr) :
    carried ((tasks, nr) :: sizes) tasks (fun i => c i) = carried sizes nr (share c tasks nr) := by
  rw [carried, carried, ← Finset.sum_fiberwise_of_maps_to (g := (· % nr))
    (t := (Finset.range nr).filter (reaches sizes · = true))]
  · refine Finset.sum_congr rfl fun x hx => Finset.sum_congr ?_ fun _ _ => rfl
    ext j
    simp only [Finset.mem_filter, Finset.mem_range, reaches, Bool.and_eq_true, decide_eq_true_eq]
      at hx ⊢
    constructor
    · rintro ⟨⟨hj, -⟩, hjx⟩
      exact ⟨hj, hjx⟩
    · rintro ⟨hj, rfl⟩
      exact ⟨⟨hj, hj, hx.2⟩, rfl⟩
  · intro i hi
    simp only [Finset.mem_filter, Finset.mem_range, reaches, Bool.and_eq_true] at hi ⊢
    exact ⟨Nat.mod_lt i hnr, hi.2.2⟩

lemma carried_of_le {m : ℕ} (hle : tasks ≤ m) :
    carried ((tasks, nr) :: sizes) m M = carried ((tasks, nr) :: sizes) tasks M := by
  rw [carried, carried]
  congr 1
  ext i
  simp only [Finset.mem_filter, Finset.mem_range, reaches, Bool.and_eq_true, decide_eq_true_eq]
  constructor
  · rintro ⟨-, hi, hr⟩
    exact ⟨hi, hi, hr⟩
  · rintro ⟨hi, -, hr⟩
    exact ⟨by omega, hi, hr⟩

/-- The first array is sorted at the end and has what got through. -/
def Ends (o : Order K V) (kvArr : Results K V) (M : Multiset (KeyVal K V)) : Prop :=
  ∃ out : List (KeyVal K V), Holds (kvArr 0) out ∧ out.Pairwise o.le ∧
    Cut (out : Multiset (KeyVal K V)) M

lemma Ends.cut {M N : Multiset (KeyVal K V)} (h : Ends o kvArr M) (hcut : Cut M N) :
    Ends o kvArr N := by
  obtain ⟨out, hout, hsort, hM⟩ := h
  exact ⟨out, hout, hsort, hM.trans hcut⟩

lemma mergeRounds_spec (horder : ∀ r n, (order r n).Perm (List.range n)) :
    ∀ (fuel fuel' r : ℕ) {tasks nr : ℕ} {kvArr : Results K V} {c : ℕ → List (KeyVal K V)},
      nr < fuel → nr < fuel' → 0 < nr → nr ≤ tasks →
      (∀ j < tasks, Holds (kvArr j) (c j) ∧ (c j).Pairwise o.le) →
      ∃ kvArr', mergeRounds o order fuel r tasks nr kvArr = some kvArr' ∧
        Ends o kvArr' (carried (roundSizes fuel' tasks nr) tasks (fun i => c i))
  | 0, _, _, _, _, _, _, h, _, _, _, _ => absurd h (Nat.not_lt_zero _)
  | _, 0, _, _, _, _, _, _, h, _, _, _ => absurd h (Nat.not_lt_zero _)
  | fuel + 1, fuel' + 1, r, tasks, nr, kvArr, c, hf, hf', hpos, hnr, hc => by
    have hmem : ∀ x, x ∈ order r nr ↔ x < nr := fun x => by
      rw [(horder r nr).mem_iff, List.mem_range]
    obtain ⟨kv1, hrun, -, hmerged⟩ := runWorkers_spec hnr (order r nr)
      ((horder r nr).nodup_iff.mpr List.nodup_range) (fun x => (hmem x).mp) fun j hj _ => hc j hj
    choose full hsort hfull hholds using fun x (hx : x < nr) => hmerged x ((hmem x).mpr hx)
    -- what the CPUs have left
    let c' : ℕ → List (KeyVal K V) := fun x => if hx : x < nr then kept (full x hx) else []
    have hc' : ∀ x < nr, Holds (kv1 x) (c' x) ∧ (c' x).Pairwise o.le := fun x hx => by
      simp only [c', dif_pos hx]
      exact ⟨hholds x hx, (hsort x hx).sublist (List.take_sublist _ _)⟩
    have hcut : ∀ sizes, Cut (carried sizes nr fun x => (c' x : Multiset (KeyVal K V)))
        (carried sizes nr (share c tasks nr)) := fun sizes => Cut.sum fun x hx => by
      have hx := Finset.mem_range.mp (Finset.mem_filter.mp hx).1
      simp only [c', dif_pos hx]
      rw [← hfull x hx]
      exact cut_kept _
    rw [mergeRounds, hrun, roundSizes, carried_cons _ hpos]
    by_cases hmore : 1 < nextTasks tasks nr ∧ 0 < nr / 2
    · have hle : nextTasks tasks nr ≤ nr := Nat.min_le_right _ _
      have hle' : nr / 2 ≤ nextTasks tasks nr := by
        rw [nextTasks]
        omega
      have hnext : ∀ x < nextTasks tasks nr, Holds (kv1 x) (c' x) ∧ (c' x).Pairwise o.le :=
        fun x hx => hc' x (by omega)
      obtain ⟨kv2, hrest, hends⟩ := mergeRounds_spec horder fuel fuel' (r + 1) (by omega)
        (by omega) hmore.2 hle' hnext
      simp only [Option.bind_eq_bind, Option.bind_some, if_pos hmore]
      refine ⟨kv2, hrest, hends.cut ?_⟩
      have := hcut (roundSizes fuel' (nextTasks tasks nr) (nr / 2))
      obtain ⟨fuel', rfl⟩ : ∃ k, fuel' = k + 1 := ⟨fuel' - 1, by omega⟩
      rw [roundSizes, carried_of_le hle] at this
      exact this
    · simp only [Option.bind_eq_bind, Option.bind_some, if_neg hmore]
      refine ⟨kv1, rfl, Ends.cut ⟨c' 0, (hc' 0 hpos).1, (hc' 0 hpos).2, ?_⟩ (hcut [])⟩
      rw [carried_nil hpos]
      exact ⟨le_rfl, fun _ => rfl⟩

lemma halveCpus_spec (hR : 0 < tasks) :
    ∀ (fuel fuel' nr : ℕ), nr < fuel → nr < fuel' →
      ∃ n, halveCpus tasks fuel nr = some n ∧ halveCpus tasks fuel' nr = some n ∧ n < tasks ∧
        n ≤ nr ∧ (1 < tasks → 0 < nr → 0 < n)
  | 0, _, _, h, _ => absurd h (Nat.not_lt_zero _)
  | _, 0, _, _, h => absurd h (Nat.not_lt_zero _)
  | fuel + 1, fuel' + 1, nr, h, h' => by
    rw [halveCpus, halveCpus]
    by_cases hle : tasks ≤ nr
    · rw [if_pos hle, if_pos hle]
      obtain ⟨n, hn, hn', h1, h2, h3⟩ := halveCpus_spec hR fuel fuel' (nr / 2) (by omega) (by omega)
      exact ⟨n, hn, hn', h1, by omega, fun h1 _ => h3 h1 (by omega)⟩
    · rw [if_neg hle, if_neg hle]
      exact ⟨nr, rfl, rfl, by omega, le_rfl, fun _ h => h⟩

/-- The phase ends, and carries over to the first array what the sizes of its rounds let
through. -/
lemma mergePhase_spec (horder : ∀ r n, (order r n).Perm (List.range n))
    {reduceTasks nrCpus fuel : ℕ} (hR : 0 < reduceTasks) (hcpus : 0 < nrCpus)
    (hfuel : nrCpus < fuel)
    (hc : ∀ j < reduceTasks, Holds (kvArr j) (c j) ∧ (c j).Pairwise o.le) :
    ∃ kvArr', mergePhase o order fuel reduceTasks nrCpus kvArr = some kvArr' ∧
      Ends o kvArr' (carried (phaseSizes reduceTasks nrCpus) reduceTasks (fun i => c i)) := by
  obtain ⟨n, hn, hn', hlt, hle, hpos⟩ := halveCpus_spec hR fuel (nrCpus + 1) nrCpus hfuel (by omega)
  rw [mergePhase, phaseSizes, hn, hn']
  simp only [Option.bind_eq_bind, Option.bind_some]
  by_cases hone : 1 < reduceTasks
  · exact mergeRounds_spec horder fuel (nrCpus + 1) 0 (by omega) (by omega) (hpos hone hcpus)
      (by omega) hc
  · -- one array and no CPU to merge it
    obtain rfl : reduceTasks = 1 := by omega
    obtain rfl : n = 0 := by omega
    obtain ⟨fuel, rfl⟩ : ∃ k, fuel = k + 1 := ⟨fuel - 1, by omega⟩
    have hnone : order 0 0 = [] := List.Perm.eq_nil (horder 0 0)
    refine ⟨kvArr, ?_, c 0, (hc 0 hR).1, (hc 0 hR).2, ?_⟩
    · rw [mergeRounds, hnone]
      rfl
    · have hall : carried (roundSizes (nrCpus + 1) 1 0) 1 (fun i => c i) =
          (c 0 : Multiset (KeyVal K V)) := by
        have honly : (Finset.range 1).filter (reaches [(1, 0)] · = true) = {0} := by decide
        rw [roundSizes, if_neg (by decide), carried, honly, Finset.sum_singleton]
      rw [hall]
      exact ⟨le_rfl, fun _ => rfl⟩

def concatenation (results : ℕ → List (KeyVal K V)) (reduceTasks : ℕ) : List (KeyVal K V) :=
  (List.range reduceTasks).flatMap results

lemma coe_concatenation (results : ℕ → List (KeyVal K V)) (n : ℕ) :
    (concatenation results n : Multiset (KeyVal K V)) =
      ∑ i ∈ Finset.range n, (results i : Multiset (KeyVal K V)) := by
  induction n with
  | zero => rfl
  | succ n ih =>
    rw [Finset.sum_range_succ, ← ih, concatenation, concatenation, List.range_succ,
      List.flatMap_append, List.flatMap_singleton, Multiset.coe_add]

lemma carried_eq_iff :
    carried sizes n (fun i => c i) = (concatenation c n : Multiset (KeyVal K V)) ↔
      ∀ i < n, reaches sizes i = false → c i = [] := by
  rw [coe_concatenation, carried, ← Finset.sum_filter_add_sum_filter_not (Finset.range n)
    (reaches sizes · = true)]
  rw [left_eq_add, Finset.sum_eq_zero_iff]
  simp only [Finset.mem_filter, Finset.mem_range, Bool.not_eq_true, Multiset.coe_eq_zero, and_imp]

lemma carried_le :
    carried sizes n (fun i => c i) ≤ (concatenation c n : Multiset (KeyVal K V)) := by
  rw [coe_concatenation]
  exact sum_le_sum_of_subset_of_nonneg (filter_subset _ _) fun i _ _ =>
    zero_le _

lemma Holds.unique {l' : List (KeyVal K V)} (h : Holds a l) (h' : Holds a l') : l = l' :=
  Option.some.inj (h.contents_eq.symm.trans h'.contents_eq)

/-- **What the merge phase keeps.** The loop ends for all numbers of tasks and of CPUs and every
order of the workers. The first array is then a sorted permutation of all results if and only if
their number fits into 32 bits and every array is empty that the sizes of the rounds leave out. -/
theorem merge_phase_complete_iff (o : Order K V) (order : ℕ → ℕ → List ℕ)
    (horder : ∀ r n, (order r n).Perm (List.range n)) (reduceTasks nrCpus fuel : ℕ)
    (hR : 0 < reduceTasks) (hcpus : 0 < nrCpus) (hfuel : nrCpus < fuel) (kvArr : Results K V)
    (results : ℕ → List (KeyVal K V))
    (hresults : ∀ i < reduceTasks, Holds (kvArr i) (results i) ∧ (results i).Pairwise o.le) :
    ∃ kvArr', mergePhase o order fuel reduceTasks nrCpus kvArr = some kvArr' ∧
      ((∃ out, Holds (kvArr' 0) out ∧ out.Pairwise o.le ∧
          out.Perm (concatenation results reduceTasks)) ↔
        (concatenation results reduceTasks).length < 2 ^ 32 ∧
          ∀ i < reduceTasks, reaches (phaseSizes reduceTasks nrCpus) i = false →
            results i = []) := by
  obtain ⟨kvArr', hphase, out, hout, hsort, hcut⟩ := mergePhase_spec horder hR hcpus hfuel hresults
  refine ⟨kvArr', hphase, ?_, ?_⟩
  · rintro ⟨out', hout', -, hperm⟩
    obtain rfl := hout.unique hout'
    have hall := coe_eq_coe.mpr hperm
    refine ⟨?_, carried_eq_iff.mp (le_antisymm carried_le ?_)⟩
    · rw [← hperm.length_eq, hout.length_eq]
      exact hout.small
    · rw [← hall]
      exact hcut.le
  · rintro ⟨hlt, hlost⟩
    have hall := carried_eq_iff.mpr hlost
    refine ⟨out, hout, hsort, coe_eq_coe.mp ?_⟩
    rw [hall] at hcut
    exact hcut.eq hlt

def numbers : Order ℕ ℕ where
  keyCmp :=
    { cmp := fun a b => (a : ℤ) - b
      total := by omega
      trans := by omega }

def onePair (i : ℕ) : List (KeyVal ℕ ℕ) := [⟨i, i⟩]

/-- Four tasks on two CPUs lose nothing. -/
theorem merge_phase_complete_iff_two :
    ∃ kvArr', mergePhase numbers (fun _ => List.range) 3 4 2 (fun i => ⟨1, some (onePair i)⟩) =
        some kvArr' ∧
      ∃ out, Holds (kvArr' 0) out ∧ out.Pairwise numbers.le ∧
        out.Perm (concatenation onePair 4) := by
  obtain ⟨kvArr', hphase, hiff⟩ := merge_phase_complete_iff numbers (fun _ => range)
    (fun _ _ => .rfl) 4 2 3 (by decide) (by decide) (by decide)
    (fun i => ⟨1, some (onePair i)⟩) onePair
    fun i _ => ⟨⟨Nat.one_lt_two_pow (by decide), onePair i, rfl, le_rfl, rfl⟩,
      pairwise_singleton _ _⟩
  exact ⟨kvArr', hphase, hiff.mpr ⟨by decide, by decide⟩⟩

/-- Four tasks on three CPUs lose the array of the third CPU. -/
theorem merge_phase_loses_array :
    (mergePhase numbers (fun _ => List.range) 4 4 3 fun i => ⟨1, some (onePair i)⟩).map
        (fun kvArr => (kvArr 0).contents) = some (some [⟨0, 0⟩, ⟨1, 1⟩, ⟨3, 3⟩]) ∧
      concatenation onePair 4 = [⟨0, 0⟩, ⟨1, 1⟩, ⟨2, 2⟩, ⟨3, 3⟩] := by
  decide +kernel

end Corey.Metis
