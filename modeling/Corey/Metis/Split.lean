import Mathlib.Algebra.BigOperators.Group.List.Basic
import Mathlib.Tactic.Ring

/-!
How MapReduce splits its input (`pkg/metis/mr-sched.c`).

The input is an array of units. When the number of map tasks is given in advance, every task gets
the same number of units, rounded down, and one task more is made for the rest. The products of
the unit size with a number of tasks or units are computed in 32 bits.
-/

namespace Corey.Metis

/-- `unsigned` counts modulo `2 ^ 32`. -/
def u32 (n : ℕ) : ℕ := n % 2 ^ 32

/-- `size_t` counts modulo `2 ^ 64`. -/
def u64 (n : ℕ) : ℕ := n % 2 ^ 64

/-- `map_arg_t`: the place of the first unit in the input, in bytes, and the number of units. -/
structure MapArg where
  data : ℕ
  length : ℕ
  deriving DecidableEq, Repr

/-- What the splitter reads of `mr_state.mr_fixed`: an `int` and a `size_t`. -/
structure Input where
  unitSize : ℕ
  dataSize : ℕ
  unitSize_pos : 0 < unitSize
  unitSize_lt : unitSize < 2 ^ 31
  dataSize_lt : dataSize < 2 ^ 64

variable {inp : Input} {n : ℕ}

/-- The next task and the next split position, or nothing when there is no more data. -/
def defaultSplitter (inp : Input) (nrUnits splitPos : ℕ) : Option (MapArg × ℕ) :=
  if inp.dataSize ≤ splitPos then none
  else
    let length :=
      if inp.dataSize < u64 (splitPos + u32 (inp.unitSize * nrUnits)) then
        (inp.dataSize - splitPos) / inp.unitSize
      else nrUnits
    some (⟨splitPos, length⟩, u64 (splitPos + u32 (nrUnits * inp.unitSize)))

/-- The loop of `serial_split_input`, from a split position on. -/
def splitTasks (inp : Input) (unitsPerTask : ℕ) : ℕ → ℕ → List MapArg
  | 0, _ => []
  | k + 1, splitPos =>
    match defaultSplitter inp unitsPerTask splitPos with
    | none => []
    | some (ma, splitPos') => ma :: splitTasks inp unitsPerTask k splitPos'

def unitsPerTask (inp : Input) (mapTasks : ℕ) : ℕ :=
  u32 (inp.dataSize / u32 (inp.unitSize * mapTasks))

/-- `serial_split_input`. A division by 0 stops the program, and so does a task of no units. -/
def serialSplitInput (inp : Input) (mapTasks : ℕ) : Option (List MapArg) :=
  if u32 (inp.unitSize * mapTasks) = 0 then none
  else if unitsPerTask inp mapTasks = 0 then none
  else some (splitTasks inp (unitsPerTask inp mapTasks) (u32 (mapTasks + 1)) 0)

/-! ### What the tasks should be -/

/-- The tasks are consecutive ranges from `pos` on. -/
def Consecutive (unitSize : ℕ) : ℕ → List MapArg → Prop
  | _, [] => True
  | pos, ma :: tasks => ma.data = pos ∧ Consecutive unitSize (pos + ma.length * unitSize) tasks

def totalLength (tasks : List MapArg) : ℕ := (tasks.map MapArg.length).sum

/-- How often unit `k` of the input is given to a map call. -/
def timesGiven (unitSize k : ℕ) (tasks : List MapArg) : ℕ :=
  (tasks.filter fun ma =>
    ma.data ≤ k * unitSize ∧ k * unitSize < ma.data + ma.length * unitSize).length

structure Covers (inp : Input) (tasks : List MapArg) : Prop where
  consecutive : Consecutive inp.unitSize 0 tasks
  total : totalLength tasks = inp.dataSize / inp.unitSize
  once : ∀ k < inp.dataSize / inp.unitSize, timesGiven inp.unitSize k tasks = 1

@[simp] lemma totalLength_nil : totalLength [] = 0 := rfl

@[simp] lemma totalLength_cons (ma : MapArg) (tasks : List MapArg) :
    totalLength (ma :: tasks) = ma.length + totalLength tasks := by
  simp [totalLength]

lemma Consecutive.timesGiven_eq {u : ℕ} (hu : 0 < u) (k : ℕ) :
    ∀ {tasks : List MapArg} {a : ℕ}, Consecutive u (a * u) tasks →
      timesGiven u k tasks = if a ≤ k ∧ k < a + totalLength tasks then 1 else 0
  | [], a, _ => by
    rw [if_neg (by simp)]
    rfl
  | ma :: tasks, a, h => by
    obtain ⟨hdata, hrest⟩ := h
    rw [← Nat.add_mul] at hrest
    have ih := hrest.timesGiven_eq hu k
    have hin : (ma.data ≤ k * u ∧ k * u < ma.data + ma.length * u) ↔ a ≤ k ∧ k < a + ma.length := by
      rw [hdata, ← Nat.add_mul, Nat.mul_le_mul_right_iff hu, Nat.mul_lt_mul_right hu]
    rw [timesGiven, List.filter_cons]
    simp only [hin, decide_eq_true_eq, totalLength_cons]
    rw [timesGiven] at ih
    by_cases hhere : a ≤ k ∧ k < a + ma.length
    · rw [if_pos hhere, List.length_cons, ih, if_neg (by omega), if_pos (by omega)]
    · rw [if_neg hhere, ih]
      exact if_congr (by omega) rfl rfl

/-! ### The loop -/

/-- Where the units of a task take less than `2 ^ 32` bytes, the tasks are consecutive and have as
many units as there are tasks for. -/
lemma splitTasks_spec (hn : inp.unitSize * n < 2 ^ 32) :
    ∀ (k pos : ℕ), pos + k * (inp.unitSize * n) < 2 ^ 64 →
      Consecutive inp.unitSize pos (splitTasks inp n k pos) ∧
        totalLength (splitTasks inp n k pos) = min (k * n) ((inp.dataSize - pos) / inp.unitSize)
  | 0, pos, _ => by
    simp [splitTasks, Consecutive]
  | k + 1, pos, hfit => by
    have hu := inp.unitSize_pos
    have hstep : u64 (pos + u32 (inp.unitSize * n)) = pos + inp.unitSize * n := by
      rw [u32, Nat.mod_eq_of_lt hn, u64, Nat.mod_eq_of_lt]
      rw [Nat.add_mul] at hfit
      omega
    have hnext := splitTasks_spec hn k (pos + inp.unitSize * n) (by
      rw [Nat.add_mul] at hfit
      omega)
    rw [splitTasks, defaultSplitter, Nat.mul_comm n, hstep]
    by_cases hend : inp.dataSize ≤ pos
    · -- no more data
      rw [if_pos hend, Nat.sub_eq_zero_of_le hend]
      simp [Consecutive]
    rw [if_neg hend]
    simp only [Consecutive, totalLength_cons]
    by_cases hpart : inp.dataSize < pos + inp.unitSize * n
    · -- the last task takes what is left
      have hlast : splitTasks inp n k (pos + inp.unitSize * n) = [] := by
        cases k with
        | zero => rfl
        | succ k => rw [splitTasks, defaultSplitter, if_pos hpart.le]
      have hle : (inp.dataSize - pos) / inp.unitSize ≤ n := by
        refine Nat.div_le_of_le_mul ?_
        omega
      rw [if_pos hpart, hlast]
      refine ⟨⟨trivial, trivial⟩, ?_⟩
      rw [totalLength_nil, Nat.add_zero, Nat.min_eq_right]
      calc (inp.dataSize - pos) / inp.unitSize ≤ n := hle
        _ ≤ (k + 1) * n := Nat.le_mul_of_pos_left n (Nat.succ_pos k)
    · rw [if_neg hpart]
      refine ⟨⟨trivial, ?_⟩, ?_⟩
      · rw [Nat.mul_comm n]
        exact hnext.1
      · have hsplit : (inp.dataSize - pos) / inp.unitSize =
            n + (inp.dataSize - (pos + inp.unitSize * n)) / inp.unitSize := by
          rw [show inp.dataSize - pos =
            inp.unitSize * n + (inp.dataSize - (pos + inp.unitSize * n)) by omega,
            Nat.mul_add_div hu]
        rw [hnext.2, hsplit, Nat.add_mul, Nat.one_mul]
        omega

lemma splitTasks_not_consecutive (hn : 2 ^ 32 ≤ inp.unitSize * n) (hdata : 2 ^ 32 ≤ inp.dataSize)
    (k : ℕ) : ¬ Consecutive inp.unitSize 0 (splitTasks inp n (k + 2) 0) := by
  have hlt : u32 (inp.unitSize * n) < 2 ^ 32 := Nat.mod_lt _ (by decide)
  have hstep : u64 (0 + u32 (inp.unitSize * n)) = u32 (inp.unitSize * n) := by
    rw [Nat.zero_add, u64, Nat.mod_eq_of_lt (by omega)]
  rw [splitTasks, defaultSplitter, if_neg (by omega), Nat.mul_comm n, hstep]
  simp only [if_neg (show ¬ inp.dataSize < u32 (inp.unitSize * n) by omega)]
  rw [splitTasks, defaultSplitter, if_neg (by omega)]
  rintro ⟨-, hsecond, -⟩
  change u32 (inp.unitSize * n) = 0 + n * inp.unitSize at hsecond
  rw [Nat.mul_comm n] at hsecond
  omega

/-- The condition on the input: the products do not wrap where it matters, and one task more than
asked for is enough for all units. -/
def SplitFits (inp : Input) (mapTasks : ℕ) : Prop :=
  u32 (inp.unitSize * mapTasks) ≠ 0 ∧ 0 < unitsPerTask inp mapTasks ∧
    inp.unitSize * unitsPerTask inp mapTasks < 2 ^ 32 ∧
    inp.dataSize / inp.unitSize ≤ (mapTasks + 1) * unitsPerTask inp mapTasks
  deriving Decidable

/-- **The map tasks cover the input if there is no more left than one task takes.** For every unit
size, every number of tasks and every input with a unit for each task, the tasks that are built in
advance are consecutive, begin with the input and have each of its units once, if and only if the
products are not truncated and the units that rounding down leaves fit in one more task. -/
theorem serial_split_covers_iff (inp : Input) {mapTasks : ℕ} (hpos : 0 < mapTasks)
    (hint : mapTasks < 2 ^ 31) (hdata : mapTasks * inp.unitSize ≤ inp.dataSize) :
    (∃ tasks, serialSplitInput inp mapTasks = some tasks ∧ Covers inp tasks) ↔
      SplitFits inp mapTasks := by
  have hu := inp.unitSize_pos
  have hcount : u32 (mapTasks + 1) = mapTasks + 1 := Nat.mod_eq_of_lt (by omega)
  rw [serialSplitInput, SplitFits, hcount]
  by_cases hprod : u32 (inp.unitSize * mapTasks) = 0
  · simp [hprod]
  by_cases hunits : unitsPerTask inp mapTasks = 0
  · simp [hunits]
  rw [if_neg hprod, if_neg hunits]
  by_cases hwide : inp.unitSize * unitsPerTask inp mapTasks < 2 ^ 32
  · have hfit : 0 + (mapTasks + 1) * (inp.unitSize * unitsPerTask inp mapTasks) < 2 ^ 64 := by
      have := Nat.mul_le_mul (show mapTasks + 1 ≤ 2 ^ 31 by omega) hwide.le
      omega
    obtain ⟨hcons, htotal⟩ := splitTasks_spec hwide (mapTasks + 1) 0 hfit
    rw [Nat.sub_zero] at htotal
    constructor
    · rintro ⟨tasks, htasks, hcover⟩
      cases htasks
      have := htotal.symm.trans hcover.total
      exact ⟨hprod, Nat.pos_of_ne_zero hunits, hwide, by omega⟩
    · rintro ⟨-, -, -, henough⟩
      rw [Nat.min_eq_right henough] at htotal
      refine ⟨_, rfl, hcons, htotal, fun k hk => ?_⟩
      rw [Consecutive.timesGiven_eq hu k (a := 0) (by rwa [Nat.zero_mul]), htotal,
        if_pos ⟨Nat.zero_le k, by omega⟩]
  · -- the bytes of one task wrap, so the input is at least that large
    have hlarge : 2 ^ 32 ≤ inp.dataSize := by
      rcases Nat.lt_or_ge (inp.unitSize * mapTasks) (2 ^ 32) with hlt | hge
      · have hle : unitsPerTask inp mapTasks ≤ inp.dataSize / (inp.unitSize * mapTasks) := by
          rw [unitsPerTask, u32, u32, Nat.mod_eq_of_lt hlt]
          exact Nat.mod_le _ _
        have hmul := (Nat.le_div_iff_mul_le (Nat.mul_pos hu hpos)).mp hle
        have : inp.unitSize * unitsPerTask inp mapTasks ≤
            unitsPerTask inp mapTasks * (inp.unitSize * mapTasks) := by
          rw [Nat.mul_comm inp.unitSize (unitsPerTask inp mapTasks), ← Nat.mul_assoc]
          exact Nat.le_mul_of_pos_right _ hpos
        omega
      · rw [Nat.mul_comm] at hge
        omega
    obtain ⟨k, rfl⟩ := Nat.exists_eq_succ_of_ne_zero hpos.ne'
    constructor
    · rintro ⟨tasks, htasks, hcover⟩
      cases htasks
      exact absurd hcover.consecutive (splitTasks_not_consecutive (by omega) hlarge k)
    · rintro ⟨-, -, hlt, -⟩
      exact absurd hlt hwide

/-- Ten units for three tasks: three each, and one for the fourth. -/
theorem serial_split_covers_iff_ten :
    ∃ tasks, serialSplitInput ⟨4, 40, by decide, by decide, by decide⟩ 3 = some tasks ∧
      Covers ⟨4, 40, by decide, by decide, by decide⟩ tasks :=
  (serial_split_covers_iff _ (by decide) (by decide) (by decide)).mpr (by decide)

/-- Five units for three tasks: one for each of four, and the last one for none. -/
theorem serial_split_loses_unit :
    serialSplitInput ⟨1, 5, by decide, by decide, by decide⟩ 3 =
        some [⟨0, 1⟩, ⟨1, 1⟩, ⟨2, 1⟩, ⟨3, 1⟩] ∧
      timesGiven 1 4 [⟨0, 1⟩, ⟨1, 1⟩, ⟨2, 1⟩, ⟨3, 1⟩] = 0 := by
  decide

end Corey.Metis
