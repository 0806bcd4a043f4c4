import Corey.Lib.Threads
import Corey.Mem.Page

/-!
The split reader/writer lock (`lib/rwlock.c`).

A reader increments one of sixteen counters and then waits for the writer to be gone. A writer
waits for all counters to be zero, takes the lock, and looks at all counters once more; if one of
them is not zero it gives the lock back and starts again. The counters have 32 bits.
-/

namespace Corey.Sync.SplitRw

open Function Corey.Threads Corey.Mem

/-! ### The code -/

def srwNreaders : ℕ := 16

structure Srwlock where
  writeLocked : ℕ := 0
  readers : ℕ → ℕ := fun _ => 0

/-- The next access to memory of a thread. -/
inductive Pc
  | idle
  /-- `srw_read_lock`: the counter is incremented -/
  | inc (pid : ℕ)
  /-- `srw_read_lock`: the loop while there is a writer -/
  | wait (pid : ℕ)
  /-- between `srw_read_lock` and `srw_read_unlock` -/
  | reading (pid : ℕ)
  /-- `srw_read_unlock`: the assertion -/
  | readAssert (pid : ℕ)
  /-- `srw_read_unlock`: the counter is decremented -/
  | dec (pid : ℕ)
  /-- `srw_write_lock`: the first loop over the counters -/
  | scan (i : ℕ)
  /-- `srw_write_lock`: the compare-and-exchange -/
  | cas
  /-- `srw_write_lock`: the second loop over the counters -/
  | rescan (i : ℕ)
  /-- `srw_write_lock`: the lock is given back -/
  | backOff
  /-- between `srw_write_lock` and `srw_write_unlock` -/
  | writing
  /-- `srw_write_unlock`: the assertion -/
  | writeAssert
  /-- `srw_write_unlock`: the lock is cleared -/
  | clear
  /-- an assertion has failed -/
  | failed

/-- What a thread between calls does next. It unlocks with the id it has locked with. -/
inductive Call
  | readLock (pid : ℕ)
  | writeLock
  | unlock

def act (call : Call) (l : Srwlock) : Pc → Option (Srwlock × Pc)
  | .idle =>
    match call with
    | .readLock pid => some (l, .inc pid)
    | .writeLock => some (l, .scan 0)
    | .unlock => none
  | .inc pid =>
    let i := pid % srwNreaders
    some ({ l with readers := update l.readers i (atomicInc (l.readers i)) }, .wait pid)
  | .wait pid => some (l, if l.writeLocked ≠ 0 then .wait pid else .reading pid)
  | .reading pid =>
    match call with
    | .unlock => some (l, .readAssert pid)
    | _ => none
  | .readAssert pid => some (l, if l.writeLocked ≤ 1 then .dec pid else .failed)
  | .dec pid =>
    let i := pid % srwNreaders
    some ({ l with readers := update l.readers i (atomicDec (l.readers i)) }, .idle)
  | .scan i =>
    some (l, if l.readers i ≠ 0 then .scan 0
      else if i + 1 < srwNreaders then .scan (i + 1) else .cas)
  | .cas =>
    if l.writeLocked = 0 then some ({ l with writeLocked := 1 }, .rescan 0)
    else some (l, if l.writeLocked = 1 then .cas else .rescan 0)
  | .rescan i =>
    some (l, if l.readers i ≠ 0 then .backOff
      else if i + 1 < srwNreaders then .rescan (i + 1) else .writing)
  | .backOff => some ({ l with writeLocked := 0 }, .scan 0)
  | .writing =>
    match call with
    | .unlock => some (l, .writeAssert)
    | _ => none
  | .writeAssert => some (l, if l.writeLocked = 1 then .clear else .failed)
  | .clear => some ({ l with writeLocked := 0 }, .idle)
  | .failed => none

variable {T : Type}

/-- The threads with a lock after `srw_init`. -/
def srwlock (T : Type) [DecidableEq T] : System (Threads T Srwlock Pc) (T × Call) :=
  interleaving (fun s => s.mem = {} ∧ ∀ t, s.loc t = .idle) fun _ => act

/-! ### What the lock should do -/

/-- The counter of a reader that has been let in and has not given it back. -/
def Pc.reads : Pc → Option ℕ
  | .reading pid | .readAssert pid | .dec pid => some (pid % srwNreaders)
  | _ => none

/-- A writer has been let in and has not given the lock back. -/
def Pc.writes : Pc → Bool
  | .writing | .writeAssert | .clear => true
  | _ => false

structure Works (s : Threads T Srwlock Pc) : Prop where
  exclusive : ∀ t u, (s.loc t).writes = true → (s.loc u).writes = true → t = u
  noReader : ∀ t u, (s.loc t).writes = true → (s.loc u).reads = none
  asserts : ∀ t, s.loc t ≠ .failed
  free : (∀ t, s.loc t = .idle) → s.mem.writeLocked = 0 ∧ ∀ i, s.mem.readers i = 0

/-! ### The invariant -/

/-- A reader is counted from the increment to the decrement. -/
def Pc.counted : Pc → Option ℕ
  | .wait pid | .reading pid | .readAssert pid | .dec pid => some (pid % srwNreaders)
  | _ => none

def Pc.countedAt (i : ℕ) (pc : Pc) : Bool := pc.counted = some i

/-- A writer has the lock from the compare-and-exchange on. -/
def Pc.holds : Pc → Bool
  | .rescan _ | .backOff | .writing | .writeAssert | .clear => true
  | _ => false

/-- The counters below have been seen zero since the writer took the lock. -/
def Pc.passed : Pc → ℕ
  | .rescan i => i
  | .writing | .writeAssert | .clear => srwNreaders
  | _ => 0

variable [Fintype T]

structure Inv (s : Threads T Srwlock Pc) : Prop where
  small : ∀ i, s.mem.readers i < word32
  readers : ∀ i, s.mem.readers i ≡ s.count (Pc.countedAt i) [MOD word32]
  writer : s.mem.writeLocked = s.count Pc.holds
  le_one : s.mem.writeLocked ≤ 1
  asserts : ∀ t, s.loc t ≠ .failed
  /-- a reader that is inside has not been passed by the writer -/
  passed : ∀ t u i, (s.loc u).reads = some i → (s.loc t).passed ≤ i

variable {s : Threads T Srwlock Pc} {t : T} {m : Srwlock} {l old : Pc} {n : ℕ}

lemma Inv.unique {u : T} (h : Inv s) (ht : (s.loc t).holds = true) (hu : (s.loc u).holds = true) :
    t = u := by
  have hone : s.count Pc.holds ≤ 1 := h.writer ▸ h.le_one
  exact Finset.card_le_one.mp hone t (Finset.mem_filter.mpr ⟨Finset.mem_univ t, ht⟩) u
    (Finset.mem_filter.mpr ⟨Finset.mem_univ u, hu⟩)

lemma Pc.holds_of_writes : ∀ {pc : Pc}, pc.writes = true → pc.holds = true
  | .writing, _ | .writeAssert, _ | .clear, _ => rfl

lemma Pc.passed_of_writes : ∀ {pc : Pc}, pc.writes = true → pc.passed = srwNreaders
  | .writing, _ | .writeAssert, _ | .clear, _ => rfl

lemma Pc.reads_lt : ∀ {pc : Pc} {i : ℕ}, pc.reads = some i → i < srwNreaders
  | .reading pid, _, rfl | .readAssert pid, _, rfl | .dec pid, _, rfl => Nat.mod_lt pid (by decide)

lemma Pc.counted_of_reads : ∀ {pc : Pc} {i : ℕ}, pc.reads = some i → pc.counted = some i
  | .reading _, _, rfl | .readAssert _, _, rfl | .dec _, _, rfl => rfl

lemma Pc.passed_of_reads : ∀ {pc : Pc} {i : ℕ}, pc.reads = some i → pc.passed = 0
  | .reading _, _, rfl | .readAssert _, _, rfl | .dec _, _, rfl => rfl

lemma Pc.passed_of_not_holds : ∀ {pc : Pc}, pc.holds = false → pc.passed = 0
  | .idle, _ | .inc _, _ | .wait _, _ | .reading _, _ | .readAssert _, _ | .dec _, _ | .scan _, _
  | .cas, _ | .failed, _ => rfl

lemma Inv.works (h : Inv s) : Works s where
  exclusive t u ht hu := h.unique (Pc.holds_of_writes ht) (Pc.holds_of_writes hu)
  noReader t u ht := by
    by_contra hr
    obtain ⟨i, hi⟩ := Option.ne_none_iff_exists'.mp hr
    have hle := h.passed t u i hi
    rw [Pc.passed_of_writes ht] at hle
    exact absurd (Pc.reads_lt hi) (Nat.not_lt.mpr hle)
  asserts := h.asserts
  free hall := by
    refine ⟨by rw [h.writer, count_of_all hall rfl], fun i => ?_⟩
    have hr := h.readers i
    rw [count_of_all hall rfl] at hr
    exact hr.eq_of_lt_of_lt (h.small i) (by decide)

/-- What a step of thread `t` has to do to keep the invariant. -/
lemma Inv.of_step [DecidableEq T] (h : Inv s) (hsmall : ∀ i, m.readers i < word32)
    (hreaders : ∀ i, m.readers i + ((s.loc t).countedAt i).toNat ≡
      s.mem.readers i + (l.countedAt i).toNat [MOD word32])
    (hwriter : m.writeLocked + (s.loc t).holds.toNat = s.mem.writeLocked + l.holds.toNat)
    (hone : m.writeLocked ≤ 1) (hl : l ≠ .failed)
    (hpassed : ∀ u i, (s.loc u).reads = some i → l.passed ≤ i)
    (hreads : ∀ i, l.reads = some i → ∀ u, u ≠ t → (s.loc u).passed ≤ i) : Inv (s.set t m l) where
  small := hsmall
  readers i := by
    have hcount := count_set (s := s) (t := t) (m := m) (l := l) (p := Pc.countedAt i)
    refine Nat.ModEq.add_right_cancel' ((s.loc t).countedAt i).toNat ?_
    rw [hcount]
    exact (hreaders i).trans ((h.readers i).add_right _)
  writer := by
    have hcount := count_set (s := s) (t := t) (m := m) (l := l) (p := Pc.holds)
    have hw := h.writer
    rw [set_mem]
    omega
  le_one := hone
  asserts u := by
    rw [set_loc_eq]
    split_ifs
    · exact hl
    · exact h.asserts u
  passed u v i hv := by
    by_cases hvt : v = t
    · rw [hvt, set_loc_self] at hv
      by_cases hut : u = t
      · rw [hut, set_loc_self, Pc.passed_of_reads hv]
        exact Nat.zero_le i
      · rw [set_loc_of_ne hut]
        exact hreads i hv u hut
    · rw [set_loc_of_ne hvt] at hv
      by_cases hut : u = t
      · rw [hut, set_loc_self]
        exact hpassed v i hv
      · rw [set_loc_of_ne hut]
        exact h.passed u v i hv

lemma Inv.quiet [DecidableEq T] (h : Inv s) (hpc : s.loc t = old)
    (hcounted : l.counted = old.counted) (hholds : l.holds = old.holds) (hl : l ≠ .failed)
    (hpassed : ∀ u i, (s.loc u).reads = some i → l.passed ≤ i)
    (hreads : ∀ i, l.reads = some i → ∀ u, u ≠ t → (s.loc u).passed ≤ i) :
    Inv (s.set t s.mem l) := by
  refine h.of_step h.small (fun i => ?_) ?_ h.le_one hl hpassed hreads
  · rw [Pc.countedAt, Pc.countedAt, hcounted, hpc]
  · rw [hholds, hpc]

lemma Inv.zero_reads {i : ℕ} (h : Inv s) (hcard : Fintype.card T ≤ word32)
    (hzero : s.mem.readers i = 0) (ht : (s.loc t).countedAt i = false) (u : T) :
    (s.loc u).reads ≠ some i := by
  intro hu
  have hlt : s.count (Pc.countedAt i) < word32 := (count_lt_card ht).trans_le hcard
  have hr := h.readers i
  rw [hzero] at hr
  have hnone := count_eq_zero.mp (hr.eq_of_lt_of_lt (by decide) hlt).symm u
  rw [Pc.countedAt, Pc.counted_of_reads hu] at hnone
  exact absurd hnone (by simp)

lemma atomicInc_modEq (n : ℕ) : atomicInc n ≡ n + 1 [MOD word32] := Nat.mod_modEq _ _

lemma atomicDec_modEq (n : ℕ) : atomicDec n + 1 ≡ n [MOD word32] := by
  have h : atomicDec n + 1 ≡ n + (word32 - 1) + 1 [MOD word32] := (Nat.mod_modEq _ _).add_right 1
  refine h.trans ?_
  rw [Nat.add_assoc, Nat.sub_add_cancel (by decide)]
  exact Nat.add_modEq_right

lemma Inv.update [DecidableEq T] {j : ℕ} (h : Inv s) (hpc : s.loc t = old) (hn : n < word32)
    (hj : n + (old.countedAt j).toNat ≡ s.mem.readers j + (l.countedAt j).toNat [MOD word32])
    (hothers : ∀ i, i ≠ j → old.countedAt i = l.countedAt i) (hholds : l.holds = old.holds)
    (hl : l ≠ .failed) (hpassed : l.passed = 0) (hreads : l.reads = none) :
    Inv (s.set t { s.mem with readers := update s.mem.readers j n } l) := by
  subst hpc
  refine h.of_step (fun i => ?_) (fun i => ?_) (by rw [hholds]) h.le_one hl
    (fun _ i _ => by rw [hpassed]; exact Nat.zero_le i) fun i hi => by rw [hreads] at hi; cases hi
  · by_cases hij : i = j
    · simp only [hij, update_self]
      exact hn
    · simp only [update_of_ne hij]
      exact h.small i
  · by_cases hij : i = j
    · simp only [hij, update_self]
      exact hj
    · simp only [update_of_ne hij, hothers i hij]
      exact Nat.ModEq.rfl

lemma Inv.lock [DecidableEq T] (h : Inv s) (hpc : s.loc t = old) (hone : n ≤ 1)
    (hwriter : n + old.holds.toNat = s.mem.writeLocked + l.holds.toNat)
    (hcounted : old.counted = none) (hcounted' : l.counted = none) (hl : l ≠ .failed)
    (hpassed : l.passed = 0) (hreads : l.reads = none) :
    Inv (s.set t { s.mem with writeLocked := n } l) := by
  subst hpc
  refine h.of_step h.small (fun i => ?_) hwriter hone hl
    (fun _ i _ => by rw [hpassed]; exact Nat.zero_le i) fun i hi => by rw [hreads] at hi; cases hi
  rw [Pc.countedAt, Pc.countedAt, hcounted, hcounted']

lemma Inv.locked (h : Inv s) (ht : (s.loc t).holds = true) : s.mem.writeLocked = 1 := by
  have hpos := count_pos ht
  have hle := h.le_one
  rw [← h.writer] at hpos
  omega

lemma Inv.step [DecidableEq T] {call : Call} (h : Inv s) (hcard : Fintype.card T ≤ word32)
    (hact : act call s.mem (s.loc t) = some (m, l)) : Inv (s.set t m l) := by
  have hfirst : ∀ u i, (s.loc u).reads = some i → 0 ≤ i := fun _ i _ => Nat.zero_le i
  -- a reader that stays inside, and a writer that stays where it is
  have hstay : ∀ i, (s.loc t).reads = some i → ∀ u, u ≠ t → (s.loc u).passed ≤ i :=
    fun i hi u _ => h.passed u t i hi
  have hpassed := h.passed t
  have hlocked := h.locked (t := t)
  generalize hpc : s.loc t = old at hact hstay hpassed hlocked
  cases old with
  | idle =>
    cases call with
    | readLock _ | writeLock =>
      cases hact
      exact h.quiet hpc rfl rfl nofun hfirst nofun
    | unlock => cases hact
  | inc pid =>
    cases hact
    refine h.update hpc (Nat.mod_lt _ (by decide)) ?_ (fun i hi => ?_) rfl nofun rfl rfl
    · simp only [Pc.countedAt, Pc.counted]
      exact atomicInc_modEq _
    · simp only [Pc.countedAt, Pc.counted, reduceCtorEq, Option.some.injEq, Ne.symm hi]
  | wait pid =>
    cases hact
    by_cases hw : s.mem.writeLocked = 0
    · -- there is no writer that could have passed the reader
      rw [if_neg (not_not.mpr hw)]
      refine h.quiet hpc rfl rfl nofun hfirst fun i _ u _ => ?_
      have hnone := count_eq_zero.mp (h.writer.symm.trans hw) u
      rw [Pc.passed_of_not_holds hnone]
      exact Nat.zero_le i
    · rw [if_pos hw]
      exact h.quiet hpc rfl rfl nofun hfirst nofun
  | reading pid =>
    cases call with
    | unlock =>
      cases hact
      exact h.quiet hpc rfl rfl nofun hfirst hstay
    | readLock _ | writeLock => cases hact
  | readAssert pid =>
    cases hact
    rw [if_pos h.le_one]
    exact h.quiet hpc rfl rfl nofun hfirst hstay
  | dec pid =>
    cases hact
    refine h.update hpc (Nat.mod_lt _ (by decide)) ?_ (fun i hi => ?_) rfl nofun rfl rfl
    · simp only [Pc.countedAt, Pc.counted]
      exact atomicDec_modEq _
    · simp only [Pc.countedAt, Pc.counted, reduceCtorEq, Option.some.injEq, Ne.symm hi]
  | scan i =>
    cases hact
    split_ifs
    all_goals exact h.quiet hpc rfl rfl nofun hfirst nofun
  | cas =>
    simp only [act] at hact
    split_ifs at hact with hw hone
    · cases hact
      exact h.lock hpc le_rfl (by rw [hw]; rfl) rfl rfl nofun rfl rfl
    · cases hact
      exact h.quiet hpc rfl rfl nofun hfirst nofun
    · exact absurd h.le_one (by omega)
  | rescan i =>
    cases hact
    split_ifs with hzero hmore
    · exact h.quiet hpc rfl rfl nofun hfirst nofun
    all_goals
      -- there is no reader at the counter
      have hnone := h.zero_reads (t := t) hcard (not_not.mp hzero) (by rw [hpc]; rfl)
      refine h.quiet hpc rfl rfl nofun (fun u j hu => ?_) nofun
      have hle : i ≤ j := hpassed u j hu
      have hne : j ≠ i := fun heq => hnone u (heq ▸ hu)
      have hlt := Pc.reads_lt hu
      simp only [Pc.passed]
      omega
  | backOff | clear =>
    cases hact
    exact h.lock hpc (Nat.zero_le 1) (by rw [hlocked rfl]; rfl) rfl rfl nofun rfl rfl
  | writing =>
    cases call with
    | unlock =>
      cases hact
      exact h.quiet hpc rfl rfl nofun hpassed nofun
    | readLock _ | writeLock => cases hact
  | writeAssert =>
    cases hact
    rw [if_pos (hlocked rfl)]
    exact h.quiet hpc rfl rfl nofun hpassed nofun
  | failed => exact absurd hpc (h.asserts t)

lemma Inv.start (hmem : s.mem = {}) (hloc : ∀ t, s.loc t = .idle) : Inv s := by
  refine ⟨fun i => ?_, fun i => ?_, ?_, ?_, fun t => ?_, fun t u i hu => ?_⟩
  · rw [hmem]
    exact Nat.two_pow_pos 32
  · rw [hmem, count_of_all hloc rfl]
  · rw [hmem, count_of_all hloc rfl]
  · rw [hmem]
    exact Nat.zero_le 1
  · rw [hloc t]
    nofun
  · rw [hloc u] at hu
    cases hu

/-- **The split reader/writer lock excludes.** With up to `2 ^ 32` threads, in every state of every
interleaving there is at most one writer inside and no reader beside it, no assertion has failed,
and when all threads have left the lock is as it was at the start. -/
theorem srw_lock_works [DecidableEq T] (hcard : Fintype.card T ≤ word32)
    (h : (srwlock T).Reachable s) : Works s := by
  refine Inv.works (Threads.invariant (fun s hs => ?_) (fun s t call m l hI _ hact => ?_) h)
  · exact .start hs.1 hs.2
  · exact hI.step hcard hact

def start (n : ℕ) : Threads (Fin n) Srwlock Pc := ⟨{}, fun _ => .idle⟩

lemma start_reachable (n : ℕ) : (srwlock (Fin n)).Reachable (start n) := .start ⟨rfl, fun _ => rfl⟩

/-- The reader `c` is inside, and the writer `d` has found its counter. -/
def readerFirst (c d : C) : List (C × Call) :=
  [(c, .readLock 3), (c, .unlock), (c, .unlock), (d, .writeLock), (d, .unlock), (d, .unlock)]

theorem srw_lock_works_readerFirst :
    ∃ s, (srwlock (Fin 2)).run (fun _ _ => true) (readerFirst 0 1) (start 2) = some s ∧
      Works s := by
  have hends : ((srwlock (Fin 2)).run (fun _ _ => true) (readerFirst 0 1) (start 2)).isSome =
      true := by decide
  obtain ⟨s, hs⟩ := Option.isSome_iff_exists.mp hends
  exact ⟨s, hs, srw_lock_works (by decide) ((start_reachable 2).run (fun _ _ _ => trivial) hs)⟩

/-- `k` readers are inside, all with the same counter. -/
structure Crowd {n : ℕ} (k : ℕ) (s : Threads (Fin n) Srwlock Pc) : Prop where
  reach : (srwlock (Fin n)).Reachable s
  mem : s.mem = { readers := update (fun _ => 0) 0 (k % word32) }
  inside : ∀ t, t.val < k → s.loc t = .reading 0
  outside : ∀ t, k ≤ t.val → s.loc t = .idle

lemma exists_crowd : ∀ k ≤ n, ∃ s : Threads (Fin n) Srwlock Pc, Crowd k s
  | 0, _ => ⟨start n, start_reachable n, by rw [Nat.zero_mod, update_eq_self]; rfl, nofun,
      fun _ _ => rfl⟩
  | k + 1, hk => by
    obtain ⟨s, hs⟩ := exists_crowd k (Nat.le_of_succ_le hk)
    let t : Fin n := ⟨k, hk⟩
    let r : Srwlock := { readers := update (fun _ => 0) 0 (atomicInc (k % word32)) }
    have hrun : solo (fun _ => act) t (.readLock 0) 3 s.mem (s.loc t) = some (r, .reading 0) := by
      rw [hs.mem, hs.outside t le_rfl]
      simp only [solo, act, Option.bind_some, srwNreaders, Nat.zero_mod, update_self, update_idem]
      rfl
    refine ⟨s.set t r (.reading 0), reachable_solo 3 hs.reach hrun, ?_, fun u hu => ?_,
      fun u hu => ?_⟩
    · rw [set_mem, ← Nat.mod_add_mod]
      rfl
    · rw [set_loc_eq]
      split_ifs with hut
      · rfl
      · exact hs.inside u (Nat.lt_of_le_of_ne (Nat.lt_succ_iff.mp hu) fun heq => hut (Fin.ext heq))
    · have hut : u ≠ t := by
        rintro rfl
        exact absurd hu (Nat.not_succ_le_self k)
      rw [set_loc_of_ne hut]
      exact hs.outside u (Nat.le_of_succ_le hu)

/-- One thread too many: `2 ^ 32` readers are inside, their counter has come round to zero, and a
writer is let in. -/
theorem srw_lock_fails : ∃ s : Threads (Fin (word32 + 1)) Srwlock Pc,
    (srwlock (Fin (word32 + 1))).Reachable s ∧ (s.loc (Fin.last word32)).writes = true ∧
      (s.loc 0).reads = some 0 := by
  obtain ⟨s, hs⟩ := exists_crowd (n := word32 + 1) word32 (Nat.le_succ _)
  let r : Srwlock := { writeLocked := 1 }
  have hrun : solo (fun _ => act) (Fin.last word32) .writeLock 34 s.mem (s.loc (Fin.last word32)) =
      some (r, .writing) := by
    rw [hs.mem, hs.outside _ le_rfl, Nat.mod_self, update_eq_self]
    rfl
  refine ⟨_, reachable_solo 34 hs.reach hrun, ?_, ?_⟩
  · rw [set_loc_self]
    rfl
  · have hne : (0 : Fin (word32 + 1)) ≠ Fin.last word32 := fun heq =>
      (Nat.two_pow_pos 32).ne (congrArg Fin.val heq)
    rw [set_loc_of_ne hne, hs.inside 0 (Nat.two_pow_pos 32)]
    rfl

end Corey.Sync.SplitRw
