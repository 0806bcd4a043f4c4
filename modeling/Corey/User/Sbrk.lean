import Corey.User.As

/-!
The heap of a process (`lib/sbrk.c`).

The break is kept beside the number of bytes the heap segment has, so that it can move down and up
again without a system call. What a negative argument takes away is not compared with the break:
`size_t` wraps around below zero.
-/

namespace Corey.User

open Corey.Comp
open Corey.Mem (pgsize)
open Corey.Kern (word64 roundup)

def uheap : ℕ := 0x600200000000
def uheaptop : ℕ := 0x600300000000

/-- `heap_maxbytes`; `as_map` writes back the number it was given. -/
def heapMaxbytes : ℕ := uheaptop - uheap

/-- `sizeof(*heap)` -/
def heapSize : ℕ := 40

/-- `(void *)-1` -/
def minusOne : ℕ := word64 - 1

structure Heap where
  mu : Bool := false
  seg : ℕ := 0
  brk : ℕ := 0
  realBrk : ℕ := 0
  deriving DecidableEq, Repr

structure Process where
  space : Space := {}
  heap : Option Heap := none

abbrev PM := Comp Errno Process

def onSpace {α : Type} (m : UM α) : PM α := zoom Process.space (fun t s => { s with space := t }) m

/-- A `size_t` read as an `intptr_t`. -/
def toSigned (n : ℕ) : ℤ := if n < 2 ^ 63 then n else n - 2 ^ 64

/-- `a + x` in a `size_t`. -/
def addSigned (a : ℕ) (x : ℤ) : ℕ := ((a + x) % word64).toNat

def getHeap : PM Heap := do
  let s ← state
  need .gone s.heap

def setHeap (h : Heap) : PM Unit := change fun s => { s with heap := some h }

/-- The mutex is taken by one who finds it free. -/
def lockHeap : PM Unit := do
  let h ← getHeap
  if h.mu then halt .spin else setHeap { h with mu := true }

def unlockHeap : PM Unit := do
  let h ← getHeap
  setHeap { h with mu := false }

structure SbrkCalls where
  metaHeap : AllocCalls := {}
  alloc : Bool := false
  map : MapCalls := {}
  unref : Bool := false
  setNbytes : Bool := false

/-- The first call makes the structure. -/
def heapInit (c : SbrkCalls) : PM Unit := do
  let s ← state
  match s.heap with
  | some _ => pure ()
  | none => do
    let _ ← onSpace (segmentAllocMap c.metaHeap heapSize none)
    setHeap {}

/-- The bytes the segment lacks. A break that moves down needs none. -/
def Heap.needed (h : Heap) (x : ℤ) : ℤ :=
  if x < 0 then x - x
  else if h.realBrk ≠ h.brk then x - min (toSigned ((h.realBrk + (word64 - h.brk)) % word64)) x
  else x

/-- The segment mapped at the heap's addresses, which is made if there is none. -/
def heapSegment (c : SbrkCalls) : PM Unit := do
  let s ← state
  let h ← getHeap
  match asLookup s.space uheap with
  | some uam => setHeap { h with seg := uam.object }
  | none => do
    let seg ← onSpace (sysSegmentAlloc c.alloc 0)
    setHeap { h with seg := seg }
    let _ ← onSpace (onErr (asMap c.map seg 0 (some uheap) (some heapMaxbytes))
      (do let _ ← attempt (sysShareUnref c.unref seg)))

/-- What follows when the segment has too few bytes, up to the label `done`. -/
def heapGrow (c : SbrkCalls) (x : ℤ) : PM ℕ := do
  heapSegment c
  let h ← getHeap
  let nbrk := addSigned h.realBrk (h.needed x)
  if heapMaxbytes < nbrk then raise .noMem
  else do
    onSpace (sysSegmentSetNbytes c.setNbytes h.seg nbrk)
    setHeap { h with realBrk := nbrk, brk := addSigned h.brk x }
    pure ((uheap + h.brk) % word64)

def sbrk (c : SbrkCalls) (x : ℤ) : PM ℕ := do
  let r ← attempt (heapInit c)
  match r with
  | .error _ => pure minusOne
  | .ok _ => do
    lockHeap
    let h ← getHeap
    if h.needed x = 0 then do
      setHeap { h with brk := addSigned h.brk x }
      unlockHeap
      pure ((uheap + h.brk) % word64)
    else do
      let r ← attempt (heapGrow c x)
      unlockHeap
      match r with
      | .error _ => pure minusOne
      | .ok p => pure p

/-! ### What the heap should be -/

/-- The break; it is zero before the first call. -/
def Process.brk (s : Process) : ℕ := (s.heap.getD {}).brk

/-- The break lies inside the segment that is mapped at the heap's addresses. -/
structure Heap.Sound (h : Heap) (sp : Space) : Prop where
  brk_le : h.brk ≤ h.realBrk
  realBrk_le : h.realBrk ≤ heapMaxbytes
  mapped : 0 < h.realBrk → ∃ uam, asLookup sp uheap = some uam ∧ uam.object = h.seg
  backed : 0 < h.realBrk → ∃ sg, sp.segs h.seg = some sg ∧ h.realBrk ≤ sg.npage * pgsize

/-- The heap between two calls. -/
def Process.Consistent (s : Process) : Prop :=
  ∀ h, s.heap = some h → h.mu = false ∧ h.Sound s.space

/-- What a call of `sbrk` that returns `p` should have done. -/
structure Moved (s : Process) (x : ℤ) (p : ℕ) (t : Process) : Prop where
  consistent : t.Consistent
  success : p ≠ minusOne → p = uheap + s.brk ∧ (t.brk : ℤ) = s.brk + x
  failure : p = minusOne → t.brk = s.brk

/-! ### When it is so -/

namespace SbrkCalls

/-- The structure is there or can be made. -/
def Starts (c : SbrkCalls) (s : Process) : Prop :=
  s.heap = none → ¬ c.metaHeap.Refused none (npagesOf heapSize)
  deriving Decidable

/-- The heap segment has to be mapped, and `as_map` panics. -/
def MapPanics (c : SbrkCalls) (sp : Space) : Prop :=
  asLookup sp uheap = none ∧ c.alloc = false ∧
    c.map.Panics (some uheap) (npagesOf heapMaxbytes)

/-- `as_map` panics on the way. -/
def Panics (c : SbrkCalls) (x : ℤ) (s : Process) : Prop :=
  (s.heap = none ∧ c.metaHeap.Panics none (npagesOf heapSize)) ∨
    c.Starts s ∧ (s.heap.getD {}).needed x ≠ 0 ∧ c.MapPanics s.space

end SbrkCalls

instance (c : SbrkCalls) (x : ℤ) (s : Process) : Decidable (c.Panics x s) :=
  have : Decidable (c.MapPanics s.space) := inferInstanceAs (Decidable (_ ∧ _))
  inferInstanceAs (Decidable (_ ∨ _))

structure SbrkArgs where
  calls : SbrkCalls
  x : ℤ
  ge : -2 ^ 63 ≤ x
  lt : x < 2 ^ 63

/-- The break does not move below zero, and no assertion of `as.c` fails. -/
def StaysAbove (s : Process) (a : SbrkArgs) : Prop :=
  ¬ a.calls.Panics a.x s ∧ (a.calls.Starts s → -(s.brk : ℤ) ≤ a.x)
  deriving Decidable

/-- Calls of `sbrk` one after another, from a process that has made none. -/
def sbrkSystem : System Process SbrkArgs where
  init s := s.heap = none
  step a s := (sbrk a.calls a.x).next s

variable {s : Process} {h : Heap} {sp : Space} {c : SbrkCalls} {x : ℤ} {X : Exits Errno Process}

lemma Heap.needed_of_neg (hx : x < 0) : h.needed x = 0 := by
  rw [needed, if_pos hx, Int.sub_self]

lemma Heap.Sound.needed_eq (hs : h.Sound sp) (hx : 0 ≤ x) :
    h.needed x = max 0 (x - (h.realBrk - h.brk : ℕ)) := by
  have hle := hs.brk_le
  have hmax : h.realBrk ≤ 2 ^ 32 := hs.realBrk_le
  have hmod : (h.realBrk + (word64 - h.brk)) % word64 = h.realBrk - h.brk := by
    have hw : word64 = 2 ^ 64 := rfl
    rw [show h.realBrk + (word64 - h.brk) = h.realBrk - h.brk + word64 by omega,
      Nat.add_mod_right, Nat.mod_eq_of_lt (by omega)]
  have hsmall : h.realBrk - h.brk < 2 ^ 63 := by omega
  rw [needed, if_neg (Int.not_lt.mpr hx), hmod, toSigned, if_pos hsmall]
  split_ifs with hne
  · omega
  · omega

lemma addSigned_eq {a : ℕ} (h0 : 0 ≤ (a : ℤ) + x) (h1 : (a : ℤ) + x < 2 ^ 64) :
    (addSigned a x : ℤ) = a + x := by
  have hw : ((word64 : ℕ) : ℤ) = 2 ^ 64 := rfl
  rw [addSigned, hw, Int.emod_eq_of_lt h0 h1, Int.toNat_of_nonneg h0]

lemma Heap.Sound.address (hs : h.Sound sp) :
    (uheap + h.brk) % word64 = uheap + h.brk ∧ uheap + h.brk ≠ minusOne := by
  have h1 : h.brk ≤ 2 ^ 32 := hs.brk_le.trans hs.realBrk_le
  have h2 : uheap + h.brk < minusOne :=
    Nat.lt_of_le_of_lt (Nat.add_le_add_left h1 uheap) (by decide)
  exact ⟨Nat.mod_eq_of_lt (h2.trans (by decide)), Nat.ne_of_lt h2⟩

lemma Heap.Sound.fresh (sp : Space) : ({} : Heap).Sound sp :=
  ⟨Nat.le_refl 0, Nat.zero_le _, fun h => absurd h (Nat.lt_irrefl 0),
    fun h => absurd h (Nat.lt_irrefl 0)⟩

lemma Heap.Sound.setMu (hs : h.Sound sp) (mu : Bool) : ({ h with mu := mu } : Heap).Sound sp :=
  ⟨hs.brk_le, hs.realBrk_le, hs.mapped, hs.backed⟩

lemma heapInit_outcome (hs : s.Consistent) :
    wp (heapInit c)
      (fun _ t => c.Starts s ∧ ¬ (s.heap = none ∧ c.metaHeap.Panics none (npagesOf heapSize)) ∧
        t.heap = some (s.heap.getD {}) ∧ t.Consistent ∧
        asLookup t.space uheap = asLookup s.space uheap)
      ⟨fun _ t => ¬ c.Starts s ∧ t.Consistent ∧ t.brk = s.brk,
        fun _ _ => s.heap = none ∧ c.metaHeap.Panics none (npagesOf heapSize)⟩ s := by
  rw [heapInit, wp_bind, wp_state]
  cases hh : s.heap with
  | some h =>
    refine ⟨fun h => ?_, fun h => ?_, ?_, hs, rfl⟩
    · exact nomatch hh.symm.trans h
    · exact nomatch h.1
    · exact hh
  | none =>
    dsimp only
    rw [wp_bind, onSpace, wp_zoom]
    refine wp_imp (segmentAllocMap_outcome none (by decide)) ?_ ?_ fun _ _ h => ⟨rfl, h⟩
    · rintro r t ⟨hr, hp, rfl, rfl⟩
      refine ⟨fun _ => hr, fun h => hp h.2, rfl, ?_, ?_⟩
      · rintro h hh
        obtain rfl : ({} : Heap) = h := Option.some.inj hh
        exact ⟨rfl, Heap.Sound.fresh _⟩
      · refine asLookup_mapped_of_ne fun hva => ?_
        -- the region of `cache_get_va` ends below the heap
        have hroom : c.metaHeap.map.Room none (npagesOf heapSize) :=
          MapCalls.room_of_not (fun h => hr (Or.inr h)) fun h =>
            hp ⟨Bool.eq_false_iff.mpr fun ha => hr (Or.inl ha), h⟩
        have hend : uasmanagerend < uheap := by decide
        have hle := (hroom rfl).2
        rw [Option.getD_none] at hva
        omega
    · rintro e t ⟨hr, he, -⟩
      refine ⟨fun h => h hh hr, fun h hh' => ?_, ?_⟩
      · exact nomatch hh.symm.trans hh'
      · rw [Process.brk, Process.brk, hh]

lemma wp_getHeap {Q : Heap → Process → Prop} (hh : s.heap = some h) : wp getHeap Q X s ↔ Q h s := by
  simp [getHeap, hh]

lemma wp_onSpace {α : Type} {m : UM α} {Q : α → Process → Prop} : wp (onSpace m) Q X s ↔
      wp m (fun a t => Q a { s with space := t })
        (X.comap fun t => { s with space := t }) s.space :=
  wp_zoom

lemma heapSegment_outcome (hh : s.heap = some h) (hs : h.Sound s.space) :
    wp (heapSegment c) (fun _ t => ∃ seg, t.heap = some { h with seg := seg } ∧
        ({ h with seg := seg } : Heap).Sound t.space ∧
        (∃ uam, asLookup t.space uheap = some uam ∧ uam.object = seg) ∧
        ¬ c.MapPanics s.space)
      ⟨fun _ t => ∃ seg, t.heap = some { h with seg := seg } ∧
          ({ h with seg := seg } : Heap).Sound t.space ∧
          ¬ c.MapPanics s.space,
        fun _ _ => c.MapPanics s.space⟩ s := by
  rw [heapSegment, wp_bind, wp_state, wp_bind, wp_getHeap hh]
  cases hl : asLookup s.space uheap with
  | some uam =>
    refine ⟨uam.object, rfl, ⟨hs.brk_le, hs.realBrk_le, fun _ => ⟨uam, hl, rfl⟩, fun hr => ?_⟩,
      ⟨uam, hl, rfl⟩, fun h => nomatch hl.symm.trans h.1⟩
    obtain ⟨uam', hl', hseg⟩ := hs.mapped hr
    obtain rfl : uam = uam' := Option.some.inj (hl.symm.trans hl')
    obtain ⟨sg, hsg, hle⟩ := hs.backed hr
    exact ⟨sg, by rw [hseg]; exact hsg, hle⟩
  | none =>
    -- nothing is mapped, so that the segment has not been used before
    have hzero : ¬ 0 < h.realBrk := by
      intro hr
      obtain ⟨uam, hl', -⟩ := hs.mapped hr
      exact nomatch hl.symm.trans hl'
    have hany : ∀ (seg : ℕ) (sp : Space), ({ h with seg := seg } : Heap).Sound sp := fun _ _ =>
      ⟨hs.brk_le, hs.realBrk_le, fun hr => absurd hr hzero, fun hr => absurd hr hzero⟩
    dsimp only
    rw [wp_bind, wp_onSpace]
    rcases halloc : c.alloc with _ | _
    · show wp _ _ _ ({ s with space := s.space.alloced (npagesOf 0) } : Process)
      rw [wp_bind, setHeap, wp_change, wp_bind, wp_onSpace, wp_onErr]
      refine wp_imp (asMap_outcome (some uheap) (by decide)) ?_ ?_ fun _ _ h => ⟨hl, halloc, h⟩
      · rintro r t ⟨-, hp, rfl, rfl⟩
        exact ⟨_, rfl, hany _ _, ⟨_, asLookup_mapped hl, rfl⟩, fun h => hp h.2.2⟩
      · rintro e t ⟨hr, rfl⟩
        refine wp_bind.mpr (wp_of_never (sysShareUnref_others _ _) fun _ u _ => ?_)
        exact ⟨_, rfl, hany _ _, fun h => MapCalls.not_panics_of_refused hr h.2.2⟩
    · exact ⟨h.seg, hh, hs, fun h => nomatch halloc.symm.trans h.2.1⟩

lemma heapGrow_outcome (hh : s.heap = some h) (hs : h.Sound s.space) (hx : x < 2 ^ 63)
    (hn : h.needed x ≠ 0) :
    wp (heapGrow c x) (fun p t => p = uheap + h.brk ∧ ¬ c.MapPanics s.space ∧
        ∃ h', t.heap = some h' ∧ h'.Sound t.space ∧ (h'.brk : ℤ) = h.brk + x)
      ⟨fun _ t => ¬ c.MapPanics s.space ∧
          ∃ h', t.heap = some h' ∧ h'.Sound t.space ∧ h'.brk = h.brk,
        fun _ _ => c.MapPanics s.space⟩ s := by
  rw [heapGrow, wp_bind]
  refine wp_mono (heapSegment_outcome hh hs) ?_ ?_
  · rintro _ t ⟨seg, ht, hst, huam, hp⟩
    rw [wp_bind, wp_getHeap ht]
    have hneg : 0 ≤ x := by
      by_contra hneg
      exact hn (Heap.needed_of_neg (by omega))
    have hle := hs.brk_le
    have hmax : h.realBrk ≤ 2 ^ 32 := hs.realBrk_le
    have hneed := hs.needed_eq hneg
    have hbrk : (addSigned h.brk x : ℤ) = h.brk + x := addSigned_eq (by omega) (by omega)
    have hnbrk : addSigned h.realBrk (h.needed x) = addSigned h.brk x := by
      have hsum : (addSigned h.realBrk (h.needed x) : ℤ) = h.realBrk + h.needed x :=
        addSigned_eq (by omega) (by omega)
      omega
    dsimp only
    rw [show ({ h with seg := seg } : Heap).needed x = h.needed x from rfl, hnbrk]
    split_ifs with hbig
    · exact ⟨hp, _, ht, hst, rfl⟩
    · have hfits : addSigned h.brk x ≤ npagesOf (addSigned h.brk x) * pgsize :=
        le_npagesOf (Nat.lt_of_le_of_lt (Nat.add_le_add_right (Nat.not_lt.mp hbig) _) (by decide))
      obtain ⟨uam, hl, hobj⟩ := huam
      rw [wp_bind, wp_onSpace]
      refine wp_mono (setNbytes_outcome _ _ _) ?_ ?_
      · rintro _ u ⟨hents, sg, hsg, hpages⟩
        refine ⟨hs.address.1, hp, _, rfl, ⟨Nat.le_refl _, Nat.not_lt.mp hbig, fun _ => ?_,
          fun _ => ⟨sg, hsg, by rw [hpages]; exact hfits⟩⟩, hbrk⟩
        exact ⟨uam, by rw [← hl, asLookup, asLookup, hents], hobj⟩
      · rintro e u rfl
        exact ⟨hp, _, ht, hst, rfl⟩
  · rintro e t ⟨seg, ht, hst, hp⟩
    exact ⟨hp, _, ht, hst, rfl⟩

/-- A call that starts ends with the lock free. What it does is right unless the break was to move
below zero. -/
lemma sbrk_outcome (hs : s.Consistent) (hx : x < 2 ^ 63) :
    wp (sbrk c x) (fun p t => ¬ c.Panics x s ∧ (c.Starts s → x < -(s.brk : ℤ) → p ≠ minusOne) ∧
        ((c.Starts s → -(s.brk : ℤ) ≤ x) → Moved s x p t))
      ⟨fun _ _ => False, fun _ _ => c.Panics x s⟩ s := by
  rw [sbrk, wp_bind, wp_attempt]
  refine wp_imp (heapInit_outcome hs) ?_ ?_ fun _ _ h => Or.inl h
  · rintro _ t ⟨hstart, hmeta, ht, hct, hl⟩
    obtain ⟨hmu, hsound⟩ := hct _ ht
    set h := s.heap.getD {} with hh
    have hbrk : s.brk = h.brk := rfl
    dsimp only
    rw [lockHeap, wp_bind, wp_bind, wp_getHeap ht, hmu]
    show wp _ _ _ ({ t with heap := some { h with mu := true } } : Process)
    rw [wp_bind, wp_getHeap rfl]
    split_ifs with hn
    · -- the segment has the bytes
      show ¬ c.Panics x s ∧ _
      have hpanics : ¬ c.Panics x s := by
        rintro (hp | ⟨-, hn', -⟩)
        · exact hmeta hp
        · exact hn' hn
      obtain ⟨haddr, hne⟩ := hsound.address
      refine ⟨hpanics, fun _ _ => by rw [haddr]; exact hne, fun hge => ?_⟩
      have hge := hge hstart
      have hle : (h.brk : ℤ) + x ≤ h.realBrk := by
        rcases Int.lt_or_le x 0 with hneg | hpos
        · have := hsound.brk_le
          omega
        · have := hsound.needed_eq hpos
          have := hsound.brk_le
          have hn : h.needed x = 0 := hn
          omega
      have hmax : h.realBrk ≤ 2 ^ 32 := hsound.realBrk_le
      have hb : (addSigned h.brk x : ℤ) = h.brk + x := addSigned_eq (by omega) (by omega)
      refine ⟨fun h' hh' => ?_, fun _ => ⟨haddr, hb⟩, fun hp => absurd (haddr ▸ hp) hne⟩
      obtain rfl := Option.some.inj hh'
      have hle' : addSigned h.brk x ≤ h.realBrk := by omega
      exact ⟨rfl, hle', hsound.realBrk_le, hsound.mapped, hsound.backed⟩
    · have hmp : c.MapPanics t.space ↔ c.MapPanics s.space := by
        rw [SbrkCalls.MapPanics, SbrkCalls.MapPanics, hl]
      have hpanics : c.Panics x s ↔ c.MapPanics s.space :=
        ⟨fun hp => hp.elim (fun hp => absurd hp hmeta) fun hp => hp.2.2,
          fun hp => Or.inr ⟨hstart, hn, hp⟩⟩
      rw [wp_bind, wp_attempt]
      refine wp_imp (heapGrow_outcome rfl (hsound.setMu true) hx hn) ?_ ?_ ?_
      · rintro p u ⟨rfl, hno, h', hu, hs', hb'⟩
        rw [wp_bind, unlockHeap, wp_bind, wp_getHeap hu]
        have hne := hsound.address.2
        refine ⟨fun hp => hno (hmp.mpr (hpanics.mp hp)), fun _ _ => hne, fun _ => ⟨?_,
          fun _ => ⟨rfl, hb'⟩, fun hp => absurd hp hne⟩⟩
        intro h'' hh''
        obtain rfl := Option.some.inj hh''
        exact ⟨rfl, hs'.setMu false⟩
      · rintro e u ⟨hno, h', hu, hs', hb'⟩
        show wp (do unlockHeap; _) _ _ u
        rw [wp_bind, unlockHeap, wp_bind, wp_getHeap hu]
        refine ⟨fun hp => hno (hmp.mpr (hpanics.mp hp)), fun _ hneg => ?_, fun _ => ⟨?_,
          fun hp => absurd rfl hp, fun _ => hb'⟩⟩
        · refine absurd (Heap.needed_of_neg ?_) hn
          omega
        · intro h'' hh''
          obtain rfl := Option.some.inj hh''
          exact ⟨rfl, hs'.setMu false⟩
      · exact fun w u hp => hpanics.mpr (hmp.mp hp)
  · rintro e t ⟨hstart, hct, hbrk⟩
    refine ⟨?_, fun h => absurd h hstart, fun _ => ⟨hct, fun h => absurd rfl h, fun _ => hbrk⟩⟩
    rintro (⟨hnone, hp⟩ | ⟨h, -⟩)
    · exact hstart fun _ hr => AllocCalls.not_panics_of_refused hr hp
    · exact hstart h

/-- **The heap stays consistent exactly while the break does not move below zero.** In a run all
of whose calls keep the break at or above zero the heap is consistent, and the next call returns
the previous break and moves it by its argument, or returns `-1` and leaves it alone, if and only
if it does so too. Calls in which an assertion of `as.c` fails do not return. -/
theorem sbrk_consistent_iff (hr : sbrkSystem.Reach StaysAbove s) :
    s.Consistent ∧ ∀ a : SbrkArgs,
      (∃ p t, sbrk a.calls a.x s = (.ok p, t) ∧ Moved s a.x p t) ↔ StaysAbove s a := by
  have hinv : s.Consistent := by
    refine hr.invariant (fun s (h0 : s.heap = none) h hh => ?_) fun s a t hs hok hstep => ?_
    · exact nomatch h0.symm.trans hh
    refine next_of_wp (wp_imp (sbrk_outcome hs a.lt) ?_ (fun _ _ => False.elim) ?_) hstep
    · exact fun p u hu => (hu.2.2 hok.2).consistent
    · exact fun _ _ _ => trivial
  refine ⟨hinv, fun a => ⟨?_, fun hok => ?_⟩⟩
  · rintro ⟨p, t, hrun, hm⟩
    obtain ⟨hp, hneg, -⟩ := wp_ok (sbrk_outcome hinv a.lt) hrun
    refine ⟨hp, fun hstart => ?_⟩
    by_contra hlt
    have := (hm.success (hneg hstart (by omega))).2
    omega
  · have hout : wp (sbrk a.calls a.x) (fun p t => Moved s a.x p t) Exits.never s :=
      wp_imp (sbrk_outcome hinv a.lt) (fun p t h => h.2.2 hok.2) (fun _ _ => id)
        fun _ _ hp => hok.1 hp
    exact ok_of_never hout

def sbrkEight : SbrkArgs := ⟨{}, 8, by decide, by decide⟩

/-- The break goes back by eight bytes. -/
def sbrkBack : SbrkArgs := ⟨{}, -8, by decide, by decide⟩

theorem sbrk_consistent_iff_eightAndBack :
    ∃ s, sbrkSystem.Reach StaysAbove s ∧ s.brk = 8 ∧
      ∃ p t, sbrk sbrkBack.calls sbrkBack.x s = (.ok p, t) ∧ Moved s sbrkBack.x p t := by
  let s := (sbrk sbrkEight.calls sbrkEight.x {}).2
  have hs : sbrkSystem.Reach StaysAbove s :=
    (System.Reach.start rfl).next (s := {}) (a := sbrkEight) (by decide +kernel) rfl
  exact ⟨s, hs, rfl, ((sbrk_consistent_iff hs).2 sbrkBack).mpr (by decide +kernel)⟩

/-- **The break moves below zero.** The first call takes eight bytes away from an empty heap, and
the break becomes `2 ^ 64 - 8`, far behind the end of the segment. -/
theorem sbrk_below_zero :
    ((sbrk sbrkBack.calls sbrkBack.x).result {}).map (fun r => (r.1, r.2.brk)) =
        some (uheap, 2 ^ 64 - 8) ∧
      ¬ ∃ p t, sbrk sbrkBack.calls sbrkBack.x {} = (.ok p, t) ∧ Moved {} sbrkBack.x p t := by
  refine ⟨by decide +kernel, ?_⟩
  rintro ⟨p, t, hrun, hm⟩
  have hp : ∀ r ∈ (sbrk sbrkBack.calls sbrkBack.x).result {}, r.1 = uheap := by decide +kernel
  have hp : p = uheap := hp _ (result_eq_some.mpr hrun)
  have hneg := (hm.success (by rw [hp]; decide)).2
  have : (t.brk : ℤ) = -8 := hneg
  omega

end Corey.User
