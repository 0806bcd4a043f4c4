import Corey.Lib.Threads

/-!
The recursive lock of the kernel (`kern/arch/amd64/spinlock.h`).

A semicolon is missing in `rec_lock`, so that the spin lock is only taken where the owner locks
once more, and not where a CPU locks for the first time:

    if (r->owner == arch_cpu())
        return spin_lock(&r->l);
    r->owner = arch_cpu();

There is no count of the calls, so that each `rec_unlock` gives the lock up.
-/

namespace Corey.Sync.RecLock

open Corey.Threads

variable {C : Type}

/-! ### The code -/

/-- `struct reclock`. Nobody is the owner when the field is `~0`. -/
structure Reclock (C : Type) where
  locked : Bool := false
  owner : Option C := none
  deriving DecidableEq

/-- The next access to memory of a CPU. -/
inductive Pc
  | idle
  /-- `rec_lock`: the owner is read and compared -/
  | check
  /-- `rec_lock`: the owner is written -/
  | own
  /-- `spin_lock`: the exchange -/
  | xchg
  /-- `spin_lock`: the loop until the lock is seen free -/
  | spin
  /-- `rec_unlock`: the owner is cleared -/
  | disown
  /-- `rec_unlock`, `spin_unlock`: the lock is cleared -/
  | release
  deriving DecidableEq

/-- A CPU has made `depth` more calls of `rec_lock` than of `rec_unlock` that have returned. -/
structure Cpu where
  pc : Pc := .idle
  depth : ℕ := 0
  deriving DecidableEq

/-- A CPU between calls makes the next one. -/
inductive Call | recLock | recUnlock

/-- The next step of CPU `c`. The calls of a CPU are properly nested. -/
def act [DecidableEq C] (c : C) (call : Call) (r : Reclock C) (l : Cpu) :
    Option (Reclock C × Cpu) :=
  match l.pc with
  | .idle =>
    match call with
    | .recLock => some (r, { l with pc := .check })
    | .recUnlock => if l.depth = 0 then none else some (r, { l with pc := .disown })
  | .check => some (r, { l with pc := if r.owner = some c then .xchg else .own })
  | .own => some ({ r with owner := some c }, ⟨.idle, l.depth + 1⟩)
  | .xchg =>
    some ({ r with locked := true }, if r.locked then { l with pc := .spin }
      else ⟨.idle, l.depth + 1⟩)
  | .spin => some (r, { l with pc := if r.locked then .spin else .xchg })
  | .disown => some ({ r with owner := none }, { l with pc := .release })
  | .release => some ({ r with locked := false }, ⟨.idle, l.depth - 1⟩)

/-- The CPUs with a lock after `rec_init`. -/
def reclock (C : Type) [DecidableEq C] : System (Threads C (Reclock C) Cpu) (C × Call) :=
  interleaving (fun s => s.mem = {} ∧ ∀ c, s.loc c = {}) act

/-! ### What the lock should do -/

variable {s s' : Threads C (Reclock C) Cpu} {c d : C}

/-- A CPU is inside from the return of its outermost `rec_lock` to that of its `rec_unlock`. -/
def Inside (s : Threads C (Reclock C) Cpu) (c : C) : Prop := 0 < (s.loc c).depth

/-- The CPU is in its outermost `rec_unlock` and has given the lock up. -/
def Leaving (s : Threads C (Reclock C) Cpu) (c : C) : Prop := s.loc c = ⟨.release, 1⟩

structure Works (s : Threads C (Reclock C) Cpu) : Prop where
  exclusive : ∀ c d, Inside s c → Inside s d → c = d
  /-- only the outermost `rec_unlock` gives the lock up -/
  owned : ∀ c, Inside s c → ¬ Leaving s c → s.mem.owner = some c
  /-- the owner does not wait for itself -/
  runs : ∀ c, Inside s c → (s.loc c).pc ≠ .spin
  free : (∀ c, s.loc c = {}) → s.mem = {}

/-- What a CPU between calls may call: its outermost `rec_lock` while every other CPU is out of
the lock and of its calls, one `rec_lock` within it, and an outermost `rec_unlock`. -/
def Polite (s : Threads C (Reclock C) Cpu) (a : C × Call) : Prop :=
  (s.loc a.1).pc = .idle →
    match a.2 with
    | .recLock => (s.loc a.1).depth = 1 ∨ (s.loc a.1).depth = 0 ∧ ∀ d ≠ a.1, s.loc d = {}
    | .recUnlock => (s.loc a.1).depth = 1

/-! ### Polite runs -/

/-- What the only CPU that is not out can be doing, and what it has made of the lock. The spin
lock is only taken by the nested call. -/
inductive Phase (c : C) : Reclock C → Cpu → Prop
  | check : Phase c {} ⟨.check, 0⟩
  | own : Phase c {} ⟨.own, 0⟩
  | inside : Phase c ⟨false, some c⟩ ⟨.idle, 1⟩
  | checkAgain : Phase c ⟨false, some c⟩ ⟨.check, 1⟩
  | xchg : Phase c ⟨false, some c⟩ ⟨.xchg, 1⟩
  | nested : Phase c ⟨true, some c⟩ ⟨.idle, 2⟩
  | disown : Phase c ⟨false, some c⟩ ⟨.disown, 1⟩
  | release : Phase c {} ⟨.release, 1⟩

/-- All CPUs are out and the lock is free, or one CPU is not. -/
def Inv (s : Threads C (Reclock C) Cpu) : Prop :=
  (s.mem = {} ∧ ∀ c, s.loc c = {}) ∨ ∃ c, Phase c s.mem (s.loc c) ∧ ∀ d ≠ c, s.loc d = {}

lemma Inv.works (h : Inv s) : Works s := by
  obtain ⟨hfree, hout⟩ | ⟨c, hc, hout⟩ := h
  · have hno : ∀ c, ¬ Inside s c := fun c hin => by simp [Inside, hout c] at hin
    exact ⟨fun c _ hin => absurd hin (hno c), fun c hin => absurd hin (hno c),
      fun c hin => absurd hin (hno c), fun _ => hfree⟩
  have honly : ∀ d, Inside s d → d = c := by
    intro d hin
    by_contra hne
    simp [Inside, hout d hne] at hin
  refine ⟨fun d e hd he => (honly d hd).trans (honly e he).symm, fun d hin hleave => ?_,
    fun d hin => ?_, fun hall => ?_⟩
  · obtain rfl := honly d hin
    rw [Inside] at hin
    rw [Leaving] at hleave
    generalize s.mem = r, s.loc d = l at hc hin hleave ⊢
    cases hc <;> simp_all
  · obtain rfl := honly d hin
    generalize s.mem = r, s.loc d = l at hc ⊢
    cases hc <;> simp
  · have hl := hall c
    generalize s.mem = r, s.loc c = l at hc hl ⊢
    cases hc <;> cases hl

section

variable [DecidableEq C]

/-- A step of the only CPU that is not out. -/
lemma Phase.step {call : Call} {r r' : Reclock C} {l l' : Cpu} (h : Phase c r l)
    (hlock : l.pc = .idle → l.depth = 1) (hact : act c call r l = some (r', l')) :
    Phase c r' l' ∨ r' = {} ∧ l' = {} := by
  cases h with
  | nested => cases hlock rfl
  | inside => cases call <;> cases hact <;> constructor <;> constructor
  | check | own | checkAgain | xchg | disown =>
    simp only [act, reduceCtorEq, if_true, if_false] at hact
    cases hact
    constructor
    constructor
  | release =>
    cases hact
    exact .inr ⟨rfl, rfl⟩

lemma Inv.step {call : Call} {r : Reclock C} {l : Cpu} (h : Inv s) (hok : Polite s (c, call))
    (hact : act c call s.mem (s.loc c) = some (r, l)) : Inv (s.set c r l) := by
  obtain ⟨hfree, hout⟩ | ⟨d, hd, hout⟩ := h
  · rw [hfree, hout c] at hact
    cases call <;> cases hact
    refine .inr ⟨c, ?_, fun d hne => ?_⟩
    · rw [set_loc_self]
      exact .check
    · rw [set_loc_of_ne hne, hout d]
  by_cases hc : c = d
  · subst hc
    have hdepth : (s.loc c).pc = .idle → (s.loc c).depth = 1 := by
      intro hidle
      have hcall := hok hidle
      generalize s.mem = r, s.loc c = l at hd hidle hcall ⊢
      cases hd <;> cases call <;> simp_all
    have hothers : ∀ d ≠ c, (s.set c r l).loc d = {} := fun d hne => by
      rw [set_loc_of_ne hne, hout d hne]
    obtain hphase | ⟨rfl, rfl⟩ := hd.step hdepth hact
    · exact .inr ⟨c, by rwa [set_loc_self], hothers⟩
    · refine .inl ⟨rfl, fun d => ?_⟩
      by_cases hne : d = c
      · rw [hne, set_loc_self]
      · exact hothers d hne
  · -- a CPU that is out can only call `rec_lock`, for which the other one would have to be out
    have hl := hout c hc
    have hcall := hok (by rw [hl])
    rw [hl] at hact hcall
    cases call with
    | recUnlock => cases hact
    | recLock =>
      have hd0 : s.loc d = {} := (hcall.resolve_left Nat.zero_ne_one).2 d (Ne.symm hc)
      generalize s.mem = r, s.loc d = l at hd hd0
      cases hd <;> cases hd0

/-! ### What any other call leads to -/

/-- The step belongs to a call that has been made. -/
def Goes (s : Threads C (Reclock C) Cpu) (a : C × Call) : Bool := (s.loc a.1).pc != .idle

/-- A CPU that has called its outermost `rec_lock` comes in whether another one is inside or not. -/
lemma comes_in (call : Call) (l : List (C × Call))
    (h : s.loc c = ⟨.check, 0⟩ ∧ s.mem.owner ≠ some c ∨ s.loc c = ⟨.own, 0⟩) :
    ∃ l', (reclock C).run Goes (l' ++ l) s =
      (reclock C).run Goes l (s.set c { s.mem with owner := some c } ⟨.idle, 1⟩) := by
  obtain ⟨hl, hown⟩ | hl := h
  · exact ⟨[(c, call), (c, call)], by
      simp [System.run, reclock, interleaving, act, Goes, hl, hown, set_set]⟩
  · exact ⟨[(c, call)], by simp [System.run, reclock, interleaving, act, Goes, hl]⟩

lemma Phase.both_inside (call : Call) (hd : Phase d s.mem (s.loc d)) (hne : c ≠ d) :
    ∃ l t, (reclock C).run Goes l (s.set c s.mem ⟨.check, 0⟩) = some t ∧
      Inside t c ∧ Inside t d := by
  have hc : s.mem.owner ≠ some c := by
    generalize s.mem = r, s.loc d = l at hd ⊢
    cases hd <;> simp [Ne.symm hne]
  have hin (l) := comes_in call l (s := s.set c s.mem ⟨.check, 0⟩) (.inl ⟨set_loc_self, hc⟩)
  simp only [set_set, set_mem] at hin
  by_cases hdepth : 0 < (s.loc d).depth
  · obtain ⟨l, hl⟩ := hin []
    exact ⟨_, _, hl, by simp [Inside], by simpa [Inside, Ne.symm hne] using hdepth⟩
  · have hd' : s.loc d = ⟨.check, 0⟩ ∨ s.loc d = ⟨.own, 0⟩ := by
      generalize s.mem = r, s.loc d = l at hd hdepth ⊢
      cases hd <;> simp_all
    obtain ⟨l', hl'⟩ := comes_in call [] (c := d)
      (s := s.set c { s.mem with owner := some c } ⟨.idle, 1⟩)
      (by simpa [Ne.symm hne, hne] using hd')
    obtain ⟨l, hl⟩ := hin (l' ++ [])
    exact ⟨_, _, hl.trans hl', by simp [Inside, hne], by simp [Inside]⟩

lemma not_works_of_not_polite {call : Call} {r : Reclock C} {l : Cpu} (h : Inv s)
    (hno : ¬ Polite s (c, call)) (hact : act c call s.mem (s.loc c) = some (r, l)) :
    ∃ l' t, (reclock C).run Goes l' (s.set c r l) = some t ∧ ¬ Works t := by
  obtain ⟨hidle, hcall⟩ := Classical.not_imp.mp hno
  -- the CPU is out while another one is not, or it has made a nested call
  have hcase : s.loc c = {} ∧ (∃ d, c ≠ d ∧ Phase d s.mem (s.loc d)) ∨
      s.loc c = ⟨.idle, 2⟩ ∧ s.mem = ⟨true, some c⟩ := by
    obtain ⟨hfree, hout⟩ | ⟨d, hd, hout⟩ := h
    · simp only [hout] at hcall hact
      cases call <;> simp [act] at hcall hact
    · by_cases hne : c = d
      · subst hne
        generalize s.mem = r, s.loc c = l at hd hidle hcall hact ⊢
        cases hd <;> cases call <;> simp_all
      · exact .inl ⟨hout c hne, d, hne, hd⟩
  obtain ⟨hl, d, hne, hd⟩ | ⟨hl, hm⟩ := hcase
  · rw [hl] at hact
    cases call <;> cases hact
    obtain ⟨l, t, hrun, hc, hd⟩ := hd.both_inside .recLock hne
    exact ⟨l, t, hrun, fun hw => hne (hw.exclusive c d hc hd)⟩
  · rw [hl, hm] at hact
    cases call with
    | recLock =>
      -- the CPU waits for the spin lock it has taken
      cases hact
      refine ⟨[(c, .recLock), (c, .recLock)], s.set c ⟨true, some c⟩ ⟨.spin, 2⟩, ?_, fun hw => ?_⟩
      · simp [System.run, reclock, interleaving, act, Goes, set_set]
      · exact hw.runs c (by simp [Inside]) (by simp)
    | recUnlock =>
      -- the lock has no owner while the CPU is inside
      cases hact
      refine ⟨[(c, .recUnlock)], s.set c ⟨true, none⟩ ⟨.release, 2⟩, ?_, fun hw => ?_⟩
      · simp [System.run, reclock, interleaving, act, Goes, set_set]
      · exact absurd (hw.owned c (by simp [Inside]) (by simp [Leaving])) (by simp)

end

/-- **Polite runs of the recursive lock.** As long as a CPU calls its outermost `rec_lock` only
while all others are out, nests one call in it at most and calls `rec_unlock` only without one, the
lock excludes, is kept by the CPU inside, does not make it wait, and is free at the end. From any
other call on, the calls that have been made can go on so that this breaks. -/
theorem rec_lock_works_iff [DecidableEq C] (h : (reclock C).Reach Polite s) :
    Works s ∧ ∀ a s', (reclock C).step a s = some s' → ¬ Polite s a →
      ∃ l t, (reclock C).run Goes l s' = some t ∧ ¬ Works t := by
  have hinv : Inv s :=
    Threads.invariant (fun s hs => .inl hs) (fun s c call r l hI hok hact => hI.step hok hact) h
  refine ⟨hinv.works, fun a s' hstep hno => ?_⟩
  obtain ⟨r, l, hact, rfl⟩ := interleaving_step hstep
  exact not_works_of_not_polite hinv hno hact

instance [DecidableEq C] [Fintype C] (s : Threads C (Reclock C) Cpu) (a : C × Call) :
    Decidable (Polite s a) := by
  unfold Polite
  split <;> infer_instance

def start (n : ℕ) : Threads (Fin n) (Reclock (Fin n)) Cpu := ⟨{}, fun _ => {}⟩

/-- CPU 0 locks and unlocks, and then CPU 1 locks twice. -/
theorem rec_lock_works_iff_turns :
    ∃ s, (reclock (Fin 2)).run (fun s a => decide (Polite s a))
        (List.replicate 3 (0, .recLock) ++ List.replicate 3 (0, .recUnlock) ++
          List.replicate 6 (1, .recLock)) (start 2) = some s ∧
      s.loc 1 = ⟨.idle, 2⟩ ∧ Works s := by
  obtain ⟨s, hs, hin⟩ : ∃ s ∈ (reclock (Fin 2)).run (fun s a => decide (Polite s a))
      (List.replicate 3 (0, .recLock) ++ List.replicate 3 (0, .recUnlock) ++
        List.replicate 6 (1, .recLock)) (start 2), s.loc 1 = ⟨.idle, 2⟩ := by decide
  have hstart : (reclock (Fin 2)).Reach Polite (start 2) := .start ⟨rfl, fun _ => rfl⟩
  have hreach := hstart.run (fun _ _ => of_decide_eq_true) hs
  exact ⟨s, hs, hin, (rec_lock_works_iff hreach).1⟩

/-- The CPU `c` locks, and `d` comes up to the store of the owner. -/
def lockedByOne (c d : C) : List (C × Call) :=
  [(c, .recLock), (d, .recLock), (c, .recLock), (c, .recLock), (d, .recLock)]

/-- The CPU `c` locks `k` times, without a step in between. -/
def lockTimes (c : C) (k : ℕ) : List (C × Call) := List.replicate (3 * k) (c, .recLock)

/-- Both CPUs are inside; after an inner `rec_unlock` the lock is free; a third nested call finds
the spin lock taken by its own CPU. -/
theorem rec_lock_fails :
    ((reclock (Fin 2)).run (fun _ _ => true) (lockedByOne 0 1 ++ [(1, .recLock)]) (start 2)).map
        (fun s => ((s.loc 0).depth, (s.loc 1).depth)) = some (1, 1) ∧
      ((reclock (Fin 2)).run (fun _ _ => true)
          (lockTimes 0 2 ++ [(0, .recUnlock), (0, .recUnlock), (0, .recUnlock)]) (start 2)).map
        (fun s => (s.loc 0, s.mem)) = some (⟨.idle, 1⟩, {}) ∧
      ((reclock (Fin 2)).run (fun _ _ => true) (lockTimes 0 3) (start 2)).map
        (fun s => (s.loc 0, s.mem)) = some (⟨.spin, 2⟩, ⟨true, some 0⟩) := by
  decide

end Corey.Sync.RecLock
