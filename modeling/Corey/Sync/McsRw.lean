import Corey.Sync.Mcs
import Mathlib.Algebra.Group.Int.Defs
import Mathlib.Algebra.Group.Nat.Defs

/-!
The reader/writer lock of the kernel (`mcsrw_*` in `kern/arch/amd64/mcs.h`).

A writer takes the queue lock and then subtracts a bias from a counter, which is zero when there
is no reader. A reader subtracts one and is let in if the result is not negative; otherwise it
adds the one back and waits. The counter is a signed word of 32 bits.
-/

namespace Corey.Sync.McsRw

open Corey.Threads

variable {C : Type}

/-! ### The code -/

def mcsrwBias : BitVec 32 := 0x01000000

structure Mcsrwlock (C : Type) where
  ml : Mcs.Mcslock C := {}
  x : BitVec 32 := mcsrwBias

/-- The next access to memory of a CPU. -/
inductive Pc (C : Type)
  | idle
  /-- `mcsrw_read_lock`: one is subtracted -/
  | readSub
  /-- `mcsrw_read_lock`: it is added back -/
  | readInc
  /-- `mcsrw_read_lock`: the loop while the counter is less than one -/
  | readSpin
  /-- between `mcsrw_read_lock` and `mcsrw_read_unlock` -/
  | reading
  /-- `mcsrw_read_unlock`: one is added -/
  | readUnlock
  /-- `mcs_lock` in `mcsrw_write_lock`, or `mcs_unlock` in `mcsrw_write_unlock` -/
  | queue (q : Mcs.Pc C)
  /-- `mcsrw_write_lock`: the bias is subtracted -/
  | writeSub
  /-- `mcsrw_write_lock`: the loop while the counter is not zero -/
  | writeSpin
  /-- between `mcsrw_write_lock` and `mcsrw_write_unlock` -/
  | writing
  /-- `mcsrw_write_unlock`: the bias is added -/
  | writeAdd

/-- What a CPU between calls does next. -/
inductive Call | readLock | writeLock | unlock

/-- Where a writer is after a step of the queue lock. -/
def Pc.ofQueue : Mcs.Pc C → Pc C
  | .out => .idle
  | .held => .writeSub
  | q => .queue q

/-- The next step of CPU `c`. The sign of a result decides with the jumps `jns` and `js`. -/
def act [DecidableEq C] (c : C) (call : Call) (m : Mcsrwlock C) :
    Pc C → Option (Mcsrwlock C × Pc C)
  | .idle =>
    match call with
    | .readLock => some (m, .readSub)
    | .writeLock => some (m, .queue .clearNext)
    | .unlock => none
  | .readSub => some ({ m with x := m.x - 1 }, if (m.x - 1).msb then .readInc else .reading)
  | .readInc => some ({ m with x := m.x + 1 }, .readSpin)
  | .readSpin => some (m, if (m.x - 1).msb then .readSpin else .readSub)
  | .reading =>
    match call with
    | .unlock => some (m, .readUnlock)
    | _ => none
  | .readUnlock => some ({ m with x := m.x + 1 }, .idle)
  | .queue q => (Mcs.act c m.ml q).map fun r => ({ m with ml := r.1 }, .ofQueue r.2)
  | .writeSub =>
    some ({ m with x := m.x - mcsrwBias }, if m.x - mcsrwBias = 0 then .writing else .writeSpin)
  | .writeSpin => some (m, if m.x ≠ 0 then .writeSpin else .writing)
  | .writing =>
    match call with
    | .unlock => some (m, .writeAdd)
    | _ => none
  | .writeAdd => some ({ m with x := m.x + mcsrwBias }, .queue .checkNext)

/-- The CPUs with a lock after `mcsrw_init`. -/
def mcsrwlock (C : Type) [DecidableEq C] : System (Threads C (Mcsrwlock C) (Pc C)) (C × Call) :=
  interleaving (fun s => s.mem = {} ∧ ∀ c, s.loc c = .idle) act

/-! ### What the lock should do -/

def Pc.reads : Pc C → Bool
  | .reading | .readUnlock => true
  | _ => false

/-- A reader is between a failed decrement and its increment. -/
def Pc.fails : Pc C → Bool
  | .readInc => true
  | _ => false

/-- The subtraction of a writer is outstanding. -/
def Pc.biased : Pc C → Bool
  | .writeSpin | .writing | .writeAdd => true
  | _ => false

def Pc.writes : Pc C → Bool
  | .writing | .writeAdd => true
  | _ => false

section

variable [Fintype C]

def counter (s : Threads C (Mcsrwlock C) (Pc C)) : ℤ :=
  mcsrwBias.toInt - s.count Pc.reads - s.count Pc.fails -
    if ∃ c, (s.loc c).biased = true then mcsrwBias.toInt else 0

structure Works (s : Threads C (Mcsrwlock C) (Pc C)) : Prop where
  exclusive : ∀ c d, (s.loc c).writes = true → (s.loc d).writes = true → c = d
  noReader : ∀ c d, (s.loc c).writes = true → (s.loc d).reads = false
  count : s.mem.x.toInt = counter s
  free : (∀ c, s.loc c = .idle) → s.mem.ml.v = none ∧ s.mem.x = mcsrwBias

end

/-! ### The queue lock in it -/

variable {s : Threads C (Mcsrwlock C) (Pc C)} {m : Mcsrwlock C} {l : Pc C} {c d : C}

/-- What a CPU is doing with the queue lock. -/
def Pc.mcs : Pc C → Mcs.Pc C
  | .idle | .readSub | .readInc | .readSpin | .reading | .readUnlock => .out
  | .queue q => q
  | .writeSub | .writeSpin | .writing | .writeAdd => .held

lemma Pc.mcs_ofQueue (q : Mcs.Pc C) : (Pc.ofQueue q).mcs = q := by
  cases q <;> rfl

lemma Pc.held_of_biased : ∀ {l : Pc C}, l.biased = true → l.mcs = .held
  | .writeSpin, _ | .writing, _ | .writeAdd, _ => rfl

lemma Pc.biased_of_writes : ∀ {l : Pc C}, l.writes = true → l.biased = true
  | .writing, _ | .writeAdd, _ => rfl

/-- What a CPU has subtracted from the counter. -/
def Pc.weight : Pc C → ℤ
  | .reading | .readUnlock | .readInc => 1
  | .writeSpin | .writing | .writeAdd => 0x01000000
  | _ => 0

lemma Pc.weight_eq (l : Pc C) :
    l.weight = l.reads.toNat + l.fails.toNat + 0x01000000 * l.biased.toNat := by
  cases l <;> simp [Pc.weight, Pc.reads, Pc.fails, Pc.biased]

lemma Pc.ofQueue_quiet (q : Mcs.Pc C) :
    (Pc.ofQueue q).weight = 0 ∧ (Pc.ofQueue q).reads = false ∧ (Pc.ofQueue q).writes = false := by
  cases q <;> exact ⟨rfl, rfl, rfl⟩

variable [DecidableEq C]

lemma reachable_mcs (h : (mcsrwlock C).Reachable s) :
    (Mcs.mcslock C).Reachable (s.map Mcsrwlock.ml Pc.mcs) := by
  refine reachable_map (fun s hs => ?_) (fun c call m l m1 l1 hact => ?_) h
  · refine ⟨?_, fun c => ?_⟩
    · rw [Threads.map, hs.1]
    · exact congrArg Pc.mcs (hs.2 c)
  · cases l with
    | idle =>
      cases call with
      | readLock =>
        cases hact
        exact .inl ⟨rfl, rfl⟩
      | writeLock =>
        cases hact
        exact .inr ⟨(), rfl⟩
      | unlock => cases hact
    | queue q =>
      obtain ⟨r, hr, heq⟩ := Option.map_eq_some_iff.mp hact
      cases heq
      refine .inr ⟨(), ?_⟩
      rw [Pc.mcs_ofQueue]
      exact hr
    | reading | writing =>
      cases call with
      | unlock =>
        cases hact
        exact .inl ⟨rfl, rfl⟩
      | readLock | writeLock => cases hact
    | writeAdd =>
      cases hact
      exact .inr ⟨(), rfl⟩
    | readSub | readSpin | writeSub | writeSpin =>
      cases hact
      refine .inl ⟨rfl, ?_⟩
      split_ifs <;> rfl
    | readInc | readUnlock =>
      cases hact
      exact .inl ⟨rfl, rfl⟩

lemma eq_of_held (h : (mcsrwlock C).Reachable s) (hc : (s.loc c).mcs = .held)
    (hd : (s.loc d).mcs = .held) : c = d := by
  have hhas : ∀ e, (s.loc e).mcs = .held → ((s.map Mcsrwlock.ml Pc.mcs).loc e).Has := fun e he => by
    simp only [Threads.map, he]
    trivial
  exact Mcs.eq_of_has (reachable_mcs h) (hhas c hc) (hhas d hd)

/-! ### The counter -/

variable [Fintype C] {v : ℤ}

def value (s : Threads C (Mcsrwlock C) (Pc C)) : ℤ :=
  0x01000000 - s.count Pc.reads - s.count Pc.fails - 0x01000000 * s.count Pc.biased

lemma value_set : value (s.set c m l) = value s + (s.loc c).weight - l.weight := by
  have hr := count_set (s := s) (t := c) (m := m) (l := l) (p := Pc.reads)
  have hf := count_set (s := s) (t := c) (m := m) (l := l) (p := Pc.fails)
  have hb := count_set (s := s) (t := c) (m := m) (l := l) (p := Pc.biased)
  rw [value, value, Pc.weight_eq, Pc.weight_eq]
  omega

structure Inv (s : Threads C (Mcsrwlock C) (Pc C)) : Prop where
  count : s.mem.x = BitVec.ofInt 32 (value s)
  /-- there is no reader beside a writer -/
  alone : ∀ c, (s.loc c).writes = true → s.count Pc.reads = 0

lemma biased_le_one (h : (mcsrwlock C).Reachable s) : s.count Pc.biased ≤ 1 := by
  refine Finset.card_le_one.mpr fun c hc d hd => ?_
  exact eq_of_held h (Pc.held_of_biased (Finset.mem_filter.mp hc).2)
    (Pc.held_of_biased (Finset.mem_filter.mp hd).2)

lemma value_bounds (h : (mcsrwlock C).Reachable s) (hcard : Fintype.card C < 2 ^ 24) :
    -2 ^ 26 < value s ∧ value s ≤ 2 ^ 24 := by
  have hr : s.count Pc.reads ≤ Fintype.card C := count_le_card
  have hf : s.count Pc.fails ≤ Fintype.card C := count_le_card
  have hb := biased_le_one h
  rw [value]
  omega

lemma ofInt_toInt (h1 : -2 ^ 27 < v) (h2 : v < 2 ^ 27) : (BitVec.ofInt 32 v).toInt = v := by
  rw [BitVec.toInt_ofInt]
  exact Int.bmod_eq_of_le (by omega) (by omega)

lemma ofInt_msb (h1 : -2 ^ 27 < v) (h2 : v < 2 ^ 27) :
    (BitVec.ofInt 32 v).msb = decide (v < 0) := by
  rw [BitVec.msb_eq_toInt, ofInt_toInt h1 h2]

lemma ofInt_eq_zero (h1 : -2 ^ 27 < v) (h2 : v < 2 ^ 27) : BitVec.ofInt 32 v = 0 ↔ v = 0 := by
  rw [← BitVec.toInt_inj, ofInt_toInt h1 h2]
  rfl

/-- What a step of CPU `c` has to do to keep the invariant. -/
lemma Inv.of_step (h : Inv s)
    (hx : m.x = s.mem.x + BitVec.ofInt 32 ((s.loc c).weight - l.weight))
    (halone : ∀ d, ((s.set c m l).loc d).writes = true → (s.set c m l).count Pc.reads = 0) :
    Inv (s.set c m l) := by
  refine ⟨?_, halone⟩
  rw [set_mem, hx, h.count, ← BitVec.ofInt_add, value_set, Int.add_sub_assoc]

lemma Inv.quiet (h : Inv s)
    (hx : m.x = s.mem.x + BitVec.ofInt 32 ((s.loc c).weight - l.weight))
    (hreads : l.reads = true → (s.loc c).reads = true)
    (hwrites : l.writes = true → (s.loc c).writes = true) : Inv (s.set c m l) := by
  refine h.of_step hx fun d hd => ?_
  have hold : ∃ e, (s.loc e).writes = true := by
    rw [set_loc_eq] at hd
    split_ifs at hd
    · exact ⟨c, hwrites hd⟩
    · exact ⟨d, hd⟩
  obtain ⟨e, he⟩ := hold
  have hcount := count_set (s := s) (t := c) (m := m) (l := l) (p := Pc.reads)
  have hzero := h.alone e he
  have hnone := count_eq_zero.mp hzero c
  cases hl : l.reads with
  | false =>
    rw [hzero, hnone, hl] at hcount
    exact hcount
  | true => exact absurd (hreads hl) (by rw [hnone]; exact Bool.false_ne_true)

lemma Inv.enter (hr : (mcsrwlock C).Reachable s) (h : Inv s) (hc : (s.loc c).mcs = .held)
    (hx : m.x = s.mem.x + BitVec.ofInt 32 ((s.loc c).weight - l.weight))
    (hl : l.reads = false) (hzero : l.writes = true → s.count Pc.reads = 0) :
    Inv (s.set c m l) := by
  refine h.of_step hx fun d hd => ?_
  have hdc : d = c := by
    by_contra hne
    rw [set_loc_of_ne hne] at hd
    exact hne (eq_of_held hr (Pc.held_of_biased (Pc.biased_of_writes hd)) hc)
  rw [hdc, set_loc_self] at hd
  have hcount := count_set (s := s) (t := c) (m := m) (l := l) (p := Pc.reads)
  rw [hzero hd, hl, Bool.toNat_false] at hcount
  omega

lemma Inv.step {call : Call} (hr : (mcsrwlock C).Reachable s) (h : Inv s)
    (hcard : Fintype.card C < 2 ^ 24) (hact : act c call s.mem (s.loc c) = some (m, l)) :
    Inv (s.set c m l) := by
  obtain ⟨hlow, hhigh⟩ := value_bounds hr hcard
  have hsame : ∀ {l l' : Pc C}, s.loc c = l → l'.weight = l.weight →
      s.mem.x = s.mem.x + BitVec.ofInt 32 ((s.loc c).weight - l'.weight) := fun hl hw => by
    rw [hl, hw, Int.sub_self]
    exact (BitVec.add_zero _).symm
  -- a subtraction of `k`, as long as the counter is in its range
  have hsub : ∀ k : ℤ, s.mem.x + BitVec.ofInt 32 (0 - k) = BitVec.ofInt 32 (value s - k) := by
    intro k
    rw [h.count, ← BitVec.ofInt_add, Int.zero_sub, Int.sub_eq_add_neg]
  cases hl : s.loc c with
  | idle =>
    rw [hl] at hact
    cases call with
    | readLock | writeLock =>
      cases hact
      exact h.quiet (hsame hl rfl) nofun nofun
    | unlock => cases hact
  | readSub =>
    rw [hl] at hact
    cases hact
    have hone : s.mem.x - 1 = s.mem.x + BitVec.ofInt 32 (0 - 1) := BitVec.sub_eq_add_neg _ _
    rw [hone, hsub, ofInt_msb (by omega) (by omega), ← hsub]
    by_cases hneg : value s - 1 < 0
    · rw [if_pos (decide_eq_true hneg)]
      exact h.quiet (by rw [hl]; rfl) nofun nofun
    · -- no writer has subtracted the bias
      rw [if_neg (by rw [decide_eq_true_eq]; exact hneg)]
      refine h.of_step (by rw [hl]; rfl) fun d hd => ?_
      have hdc : d ≠ c := by
        rintro rfl
        rw [set_loc_self] at hd
        exact Bool.false_ne_true hd
      rw [set_loc_of_ne hdc] at hd
      have hpos := count_pos (Pc.biased_of_writes hd)
      rw [value] at hneg
      omega
  | readInc =>
    rw [hl] at hact
    cases hact
    exact h.quiet (by rw [hl]; rfl) nofun nofun
  | readSpin =>
    rw [hl] at hact
    cases hact
    split_ifs
    all_goals exact h.quiet (hsame hl rfl) nofun nofun
  | reading =>
    rw [hl] at hact
    cases call with
    | unlock =>
      cases hact
      exact h.quiet (hsame hl rfl) (fun _ => by rw [hl]; rfl) nofun
    | readLock | writeLock => cases hact
  | readUnlock =>
    rw [hl] at hact
    cases hact
    exact h.quiet (by rw [hl]; rfl) nofun nofun
  | queue q =>
    rw [hl] at hact
    obtain ⟨r, hq, heq⟩ := Option.map_eq_some_iff.mp hact
    cases heq
    obtain ⟨hw, hread, hwrite⟩ := Pc.ofQueue_quiet r.2
    refine h.quiet (hsame hl hw) (fun hre => ?_) fun hwr => ?_
    · exact absurd (hread.symm.trans hre) Bool.false_ne_true
    · exact absurd (hwrite.symm.trans hwr) Bool.false_ne_true
  | writeSub =>
    rw [hl] at hact
    cases hact
    have hheld : (s.loc c).mcs = .held := by
      rw [hl]
      rfl
    have hbias : s.mem.x - mcsrwBias = s.mem.x + BitVec.ofInt 32 (0 - 0x01000000) :=
      BitVec.sub_eq_add_neg _ _
    -- nobody else has subtracted the bias
    have hnone : s.count Pc.biased = 0 := count_eq_zero.mpr fun d => by
      by_contra hd
      rw [Bool.not_eq_false] at hd
      rw [eq_of_held hr (Pc.held_of_biased hd) hheld, hl] at hd
      exact Bool.false_ne_true hd
    have hzero : s.mem.x - mcsrwBias = 0 → s.count Pc.reads = 0 := fun heq => by
      rw [hbias, hsub, ofInt_eq_zero (by omega) (by omega), value] at heq
      omega
    split_ifs with heq
    · exact h.enter hr hheld (by rw [hl]; exact hbias) rfl fun _ => hzero heq
    · exact h.enter hr hheld (by rw [hl]; exact hbias) rfl nofun
  | writeSpin =>
    rw [hl] at hact
    cases hact
    have hheld : (s.loc c).mcs = .held := by
      rw [hl]
      rfl
    have hpos : 0 < s.count Pc.biased := count_pos (t := c) (by rw [hl]; rfl)
    have hzero : s.mem.x = 0 → s.count Pc.reads = 0 := fun heq => by
      rw [h.count, ofInt_eq_zero (by omega) (by omega), value] at heq
      omega
    split_ifs with heq
    · exact h.enter hr hheld (hsame hl rfl) rfl nofun
    · exact h.enter hr hheld (hsame hl rfl) rfl fun _ => hzero (not_not.mp heq)
  | writing =>
    rw [hl] at hact
    cases call with
    | unlock =>
      cases hact
      exact h.quiet (hsame hl rfl) nofun fun _ => by rw [hl]; rfl
    | readLock | writeLock => cases hact
  | writeAdd =>
    rw [hl] at hact
    cases hact
    exact h.quiet (by rw [hl]; rfl) nofun nofun

lemma Inv.of_reachable (hcard : Fintype.card C < 2 ^ 24) (h : (mcsrwlock C).Reachable s) :
    Inv s := by
  induction h with
  | @start s hs =>
    obtain ⟨hmem, hloc⟩ := hs
    refine ⟨?_, fun c hc => ?_⟩
    · rw [hmem, value, count_of_all hloc rfl, count_of_all hloc rfl, count_of_all hloc rfl]
      rfl
    · rw [hloc c] at hc
      exact absurd hc Bool.false_ne_true
  | next hr _ hs ih =>
    obtain ⟨m, l, hact, rfl⟩ := interleaving_step hs
    exact ih.step hr hcard hact

lemma biased_eq (h : (mcsrwlock C).Reachable s) :
    s.count Pc.biased = if ∃ c, (s.loc c).biased = true then 1 else 0 := by
  split_ifs with hc
  · obtain ⟨c, hc⟩ := hc
    exact le_antisymm (biased_le_one h) (count_pos hc)
  · exact count_eq_zero.mpr fun c => by
      rw [← Bool.not_eq_true]
      exact fun hb => hc ⟨c, hb⟩

/-- **The reader/writer queue lock excludes.** With fewer than `2 ^ 24` CPUs, in every state of
every interleaving a writer that holds the lock is alone with it, the counter is the bias less what
the readers and the writer have subtracted, and the queue is empty and the counter back at the bias
when nobody holds or wants the lock. -/
theorem mcsrw_lock_works (hcard : Fintype.card C < 2 ^ 24) (h : (mcsrwlock C).Reachable s) :
    Works s := by
  have hinv := Inv.of_reachable hcard h
  obtain ⟨hlow, hhigh⟩ := value_bounds h hcard
  have hx : s.mem.x.toInt = value s := by
    rw [hinv.count, ofInt_toInt (by omega) (by omega)]
  refine ⟨fun c d hc hd => ?_, fun c d hc => ?_, ?_, fun hidle => ⟨?_, ?_⟩⟩
  · exact eq_of_held h (Pc.held_of_biased (Pc.biased_of_writes hc))
      (Pc.held_of_biased (Pc.biased_of_writes hd))
  · exact count_eq_zero.mp (hinv.alone c hc) d
  · rw [hx, value, counter, biased_eq h]
    have hbias : mcsrwBias.toInt = 0x01000000 := by decide
    rw [hbias]
    split_ifs <;> simp
  · exact Mcs.empty_of_out (reachable_mcs h) fun c => congrArg Pc.mcs (hidle c)
  · rw [hinv.count, value, count_of_all hidle rfl, count_of_all hidle rfl, count_of_all hidle rfl]
    rfl

def start (n : ℕ) : Threads (Fin n) (Mcsrwlock (Fin n)) (Pc (Fin n)) := ⟨{}, fun _ => .idle⟩

/-- The reader `c` holds the lock, and two writers wait, `e` behind `d`. -/
def readerAndWriters (c d e : C) : List (C × Call) :=
  List.replicate 2 (c, .readLock) ++ List.replicate 4 (d, .writeLock) ++
    List.replicate 6 (e, .writeLock)

theorem mcsrw_lock_works_readerAndWriters :
    ∃ s, (mcsrwlock (Fin 3)).run (fun _ _ => true) (readerAndWriters 0 1 2) (start 3) =
      some s ∧ Works s := by
  have hends : ((mcsrwlock (Fin 3)).run (fun _ _ => true)
      (readerAndWriters 0 1 2) (start 3)).isSome = true := by decide
  obtain ⟨s, hs⟩ := Option.isSome_iff_exists.mp hends
  have hstart : (mcsrwlock (Fin 3)).Reachable (start 3) := .start ⟨rfl, fun _ => rfl⟩
  exact ⟨s, hs, mcsrw_lock_works (by decide) (hstart.run (fun _ _ _ => trivial) hs)⟩

end Corey.Sync.McsRw
