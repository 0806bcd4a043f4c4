import Corey.Kern.Darray

/-!
How a process maps segments into its address space (`lib/as.c`, `lib/segment.c`).

A process keeps a copy of the slots of its address tree and fetches it again after each change, so
that the copy and the tree are one table here. Every system call may fail, and then it has no
effect; which ones do is part of the input of an operation. `cache_get_va` either finds an address
in the region it manages or panics.
-/

namespace Corey.User

open Function Corey.Comp
open Corey.Mem (pgsize)
open Corey.Kern (word64 roundup)

def uasmanagerbase : ℕ := 0x100000000
def uasmanagerend : ℕ := 0x300100000000

def npagesOf (bytes : ℕ) : ℕ := roundup bytes pgsize / pgsize

/-- `struct u_address_mapping`, of a segment. -/
structure Mapping where
  va : ℕ
  object : ℕ
  startPage : ℕ
  numPages : ℕ
  deriving DecidableEq, Repr

/-- A segment with the number of times the share holds it (`si_cnt`). -/
structure Segment where
  npage : ℕ
  cnt : ℕ := 1
  deriving DecidableEq, Repr

structure Space where
  /-- the slots of the address tree -/
  ents : List (Option Mapping) := []
  /-- the segments in the share of the process -/
  segs : ℕ → Option Segment := fun _ => none
  /-- the id of the next new object -/
  nextId : ℕ := 1

abbrev UM := Comp Errno Space

/-! ### The system calls -/

def sysSegmentAlloc (fails : Bool) (nbytes : ℕ) : UM ℕ := do
  if fails then raise .noMem
  else do
    let s ← state
    put { s with
      segs := update s.segs s.nextId (some { npage := npagesOf nbytes })
      nextId := s.nextId + 1 }
    pure s.nextId

def getSegment (seg : ℕ) : UM Segment := do
  let s ← state
  match s.segs seg with
  | none => raise .notFound
  | some sg => pure sg

def setSegment (seg : ℕ) (sg : Option Segment) : UM Unit :=
  change fun s => { s with segs := update s.segs seg sg }

def sysSegmentGetNbytes (fails : Bool) (seg : ℕ) : UM ℕ := do
  if fails then raise .noMem
  else do
    let sg ← getSegment seg
    pure (sg.npage * pgsize)

def sysSegmentSetNbytes (fails : Bool) (seg nbytes : ℕ) : UM Unit := do
  if fails then raise .noMem
  else do
    let sg ← getSegment seg
    setSegment seg (some { sg with npage := npagesOf nbytes })

/-- A segment the share holds no more is gone. -/
def sysShareUnref (fails : Bool) (seg : ℕ) : UM Unit := do
  if fails then raise .noMem
  else do
    let sg ← getSegment seg
    setSegment seg (if sg.cnt = 1 then none else some { sg with cnt := sg.cnt - 1 })

/-- A slot behind the last one makes the table longer. -/
def setEnt (ents : List (Option Mapping)) (kslot : ℕ) (uam : Option Mapping) :
    List (Option Mapping) :=
  if kslot < ents.length then ents.set kslot uam
  else ents ++ List.replicate (kslot - ents.length) none ++ [uam]

def sysAtSetSlot (fails : Bool) (kslot : ℕ) (uam : Option Mapping) : UM Unit := do
  if fails then raise .noMem
  else change fun s => { s with ents := setEnt s.ents kslot uam }

/-! ### Mapping and unmapping -/

def at? (va : ℕ) (e : Option Mapping) : Bool := e.any fun uam => uam.va = va

/-- `as_lookup` looks for the address only in the copy of the table, and has no error to return. -/
def asLookup (s : Space) (va : ℕ) : Option Mapping := (s.ents.find? (at? va)).join

/-- The smallest slot that is not in use. -/
def freeSlot (ents : List (Option Mapping)) : ℕ := ents.findIdx Option.isNone

/-- Which of the system calls of `as_map` fail, and where `cache_get_va` finds room. -/
structure MapCalls where
  getNbytes : Bool := false
  /-- the table has to grow, and `cache_grow` fails -/
  grow : Bool := false
  setSlot : Bool := false
  atGet : Bool := false
  va : ℕ := uasmanagerbase

def cacheGetKslot (fails : Bool) : UM ℕ := do
  if fails then raise .noMem
  else do
    let s ← state
    pure (freeSlot s.ents)

def cacheGetVa (c : MapCalls) (npages : ℕ) : UM ℕ := do
  require (uasmanagerbase ≤ c.va ∧ c.va + npages * pgsize ≤ uasmanagerend)
  pure c.va

/-- The bytes to be mapped: the number is given, or else it is the length of the segment. -/
def sgBytes (c : MapCalls) (seg startByteoff : ℕ) : Option ℕ → UM ℕ
  | some n => pure ((n + startByteoff) % word64)
  | none => sysSegmentGetNbytes c.getNbytes seg

/-- An address that is given is used blindly. -/
def asMap (c : MapCalls) (seg startByteoff : ℕ) (va bytes : Option ℕ) : UM ℕ := do
  require (startByteoff % pgsize = 0)
  let sgBytes ← sgBytes c seg startByteoff bytes
  let numPages := npagesOf ((sgBytes + (word64 - startByteoff)) % word64)
  let kslot ← cacheGetKslot c.grow
  let mapVa ← va.elim (cacheGetVa c numPages) pure
  sysAtSetSlot c.setSlot kslot (some ⟨mapVa, seg, startByteoff / pgsize, numPages⟩)
  require (c.atGet = false)
  pure mapVa

structure AllocCalls where
  alloc : Bool := false
  map : MapCalls := {}
  unref : Bool := false

/-- `segment_alloc` that also maps the segment, at an address or anywhere. -/
def segmentAllocMap (c : AllocCalls) (bytes : ℕ) (va : Option ℕ) : UM (ℕ × ℕ) := do
  let id ← sysSegmentAlloc c.alloc bytes
  let r ← attempt (asMap c.map id 0 va (some bytes))
  match r with
  | .error e => do
    let _ ← attempt (sysShareUnref c.unref id)
    raise e
  | .ok va => pure (id, va)

/-! ### What they do -/

variable {s : Space} {c : MapCalls} {e : Option Mapping} {ents : List (Option Mapping)}
  {va seg n kslot : ℕ} {p : Option Mapping → Bool}

@[simp] lemma at?_none : at? va none = false := rfl

lemma setEnt_cons (a : Option Mapping) : setEnt (a :: ents) (kslot + 1) e =
    a :: setEnt ents kslot e := by
  simp only [setEnt, List.length_cons, Nat.add_lt_add_iff_right, List.set_cons_succ,
    Nat.add_sub_add_right]
  split_ifs <;> simp

lemma find?_setEnt_of_not (hn : p none = false) (he : p e = false) :
    ∀ ents, (setEnt ents (freeSlot ents) e).find? p = ents.find? p
  | [] => by simp [setEnt, freeSlot, he]
  | none :: ents => by simp [setEnt, freeSlot, List.findIdx_cons, hn, he]
  | some uam :: ents => by
    have ih := find?_setEnt_of_not hn he ents
    rw [freeSlot] at ih
    simp only [freeSlot, List.findIdx_cons, Option.isNone_some, cond_false, setEnt_cons,
      List.find?_cons, ih]

lemma find?_setEnt (hn : p none = false) (he : p e = true) :
    ∀ ents, ents.find? p = none → (setEnt ents (freeSlot ents) e).find? p = some e
  | [], _ => by simp [setEnt, freeSlot, he]
  | none :: ents, _ => by simp [setEnt, freeSlot, List.findIdx_cons, he]
  | some uam :: ents, h => by
    rw [List.find?_cons] at h
    split at h
    · exact nomatch h
    · rename_i hp
      have ih := find?_setEnt hn he ents h
      rw [freeSlot] at ih
      simp only [freeSlot, List.findIdx_cons, Option.isNone_some, cond_false, setEnt_cons,
        List.find?_cons, hp, ih]

/-- The space with one more mapping, of a segment from its first page on. -/
def Space.mapped (s : Space) (va seg npages : ℕ) : Space :=
  { s with ents := setEnt s.ents (freeSlot s.ents) (some ⟨va, seg, 0, npages⟩) }

lemma asLookup_mapped_of_ne {va' : ℕ} (h : va ≠ va') :
    asLookup (s.mapped va seg n) va' = asLookup s va' := by
  rw [asLookup, asLookup, Space.mapped, find?_setEnt_of_not rfl]
  simpa [at?] using h

lemma asLookup_eq_none : asLookup s va = none ↔ s.ents.find? (at? va) = none := by
  rw [asLookup]
  cases h : s.ents.find? (at? va) with
  | none => simp
  | some e =>
    cases e with
    | none => simpa using List.find?_some h
    | some uam => simp

lemma asLookup_mapped (h : asLookup s va = none) :
    asLookup (s.mapped va seg n) va = some ⟨va, seg, 0, n⟩ := by
  rw [asLookup_eq_none] at h
  rw [asLookup, Space.mapped, find?_setEnt rfl (by simp [at?]) _ h]
  rfl

namespace MapCalls

/-- An address is given, or there is room. -/
def Room (c : MapCalls) (va : Option ℕ) (npages : ℕ) : Prop :=
  va = none → uasmanagerbase ≤ c.va ∧ c.va + npages * pgsize ≤ uasmanagerend
  deriving Decidable

/-- The mapping fails with an error. -/
def Refused (c : MapCalls) (va : Option ℕ) (npages : ℕ) : Prop :=
  c.grow = true ∨ c.Room va npages ∧ c.setSlot = true

/-- There is no room, or the copy of the table cannot be fetched. -/
def Panics (c : MapCalls) (va : Option ℕ) (npages : ℕ) : Prop :=
  c.grow = false ∧ (¬ c.Room va npages ∨ c.setSlot = false ∧ c.atGet = true)

instance (c : MapCalls) (va : Option ℕ) (npages : ℕ) : Decidable (c.Refused va npages) :=
  inferInstanceAs (Decidable (_ ∨ _))
instance (c : MapCalls) (va : Option ℕ) (npages : ℕ) : Decidable (c.Panics va npages) :=
  inferInstanceAs (Decidable (_ ∧ _))

lemma not_panics_of_refused {va : Option ℕ} (hr : c.Refused va n) : ¬ c.Panics va n := by
  rintro ⟨hg, hp⟩
  rcases hr with hr | ⟨hroom, hset⟩
  · exact nomatch hr.symm.trans hg
  · exact hp.elim (fun h => h hroom) fun h => nomatch hset.symm.trans h.1

lemma room_of_not {va : Option ℕ} (hr : ¬ c.Refused va n) (hp : ¬ c.Panics va n) : c.Room va n := by
  by_contra hroom
  exact hp ⟨Bool.eq_false_iff.mpr fun hg => hr (Or.inl hg), Or.inl hroom⟩

end MapCalls

lemma npagesOf_mul (bytes : ℕ) : npagesOf bytes * pgsize = roundup bytes pgsize :=
  Nat.div_mul_cancel (Nat.dvd_sub_mod _)

lemma le_npagesOf {bytes : ℕ} (h : bytes + (pgsize - 1) < word64) :
    bytes ≤ npagesOf bytes * pgsize := by
  rw [npagesOf_mul, roundup, Kern.rounddown, Nat.mod_eq_of_lt h]
  have hlt : (bytes + (pgsize - 1)) % pgsize < pgsize := Nat.mod_lt _ (by decide)
  have : 0 < pgsize := by decide
  omega

lemma asMap_outcome (va : Option ℕ) (hn : n < word64) :
    wp (asMap c seg 0 va (some n))
      (fun r t => ¬ c.Refused va (npagesOf n) ∧ ¬ c.Panics va (npagesOf n) ∧
        r = va.getD c.va ∧ t = s.mapped r seg (npagesOf n))
      ⟨fun _ t => c.Refused va (npagesOf n) ∧ t = s, fun _ _ => c.Panics va (npagesOf n)⟩ s := by
  have hbytes : ((n + 0) % word64 + (word64 - 0)) % word64 = n := by
    rw [Nat.add_zero, Nat.sub_zero, Nat.mod_eq_of_lt hn, Nat.add_mod_right, Nat.mod_eq_of_lt hn]
  simp only [asMap, sgBytes, wp_rules, hbytes]
  refine ⟨fun _ => ?_, fun h => absurd rfl h⟩
  generalize npagesOf n = k
  rcases hgrow : c.grow with _ | _
  · have hva : wp (va.elim (cacheGetVa c k) pure)
        (fun r t => c.Room va k ∧ r = va.getD c.va ∧ t = s)
        ⟨fun _ _ => False, fun _ _ => ¬ c.Room va k⟩ s := by
      cases va with
      | some v => exact ⟨by rintro ⟨⟩, rfl, rfl⟩
      | none =>
        simp only [Option.elim_none, cacheGetVa, wp_rules]
        exact ⟨fun h => ⟨fun _ => h, rfl, trivial⟩, fun h hr => h (hr rfl)⟩
    show wp (va.elim (cacheGetVa c k) pure) _ _ s
    refine wp_imp hva ?_ (fun _ _ => False.elim) fun _ _ h => ⟨hgrow, Or.inl h⟩
    rintro r _ ⟨hroom, rfl, rfl⟩
    rcases hslot : c.setSlot with _ | _ <;> rcases hget : c.atGet with _ | _ <;>
      simp [sysAtSetSlot, MapCalls.Refused, MapCalls.Panics, hgrow, hslot, hget, hroom,
        Space.mapped]
  · exact ⟨Or.inl hgrow, rfl⟩

namespace AllocCalls

/-- The segment is not made, or not mapped. -/
def Refused (c : AllocCalls) (va : Option ℕ) (npages : ℕ) : Prop :=
  c.alloc = true ∨ c.map.Refused va npages

def Panics (c : AllocCalls) (va : Option ℕ) (npages : ℕ) : Prop :=
  c.alloc = false ∧ c.map.Panics va npages

instance (c : AllocCalls) (va : Option ℕ) (npages : ℕ) : Decidable (c.Refused va npages) :=
  inferInstanceAs (Decidable (_ ∨ _))
instance (c : AllocCalls) (va : Option ℕ) (npages : ℕ) : Decidable (c.Panics va npages) :=
  inferInstanceAs (Decidable (_ ∧ _))

lemma not_panics_of_refused {c : AllocCalls} {va : Option ℕ} (hr : c.Refused va n) :
    ¬ c.Panics va n := by
  rintro ⟨ha, hp⟩
  rcases hr with hr | hr
  · exact nomatch hr.symm.trans ha
  · exact MapCalls.not_panics_of_refused hr hp

end AllocCalls

def Space.alloced (s : Space) (npages : ℕ) : Space :=
  { s with
    segs := update s.segs s.nextId (some { npage := npages }), nextId := s.nextId + 1 }

lemma setNbytes_outcome (fails : Bool) (seg nbytes : ℕ) :
    wp (sysSegmentSetNbytes fails seg nbytes)
      (fun _ t => t.ents = s.ents ∧ ∃ sg, t.segs seg = some sg ∧ sg.npage = npagesOf nbytes)
      ⟨fun _ t => t = s, fun _ _ => False⟩ s := by
  cases fails with
  | true => exact rfl
  | false =>
    simp only [sysSegmentSetNbytes, Bool.false_eq_true, if_false, getSegment, wp_rules]
    cases s.segs seg with
    | none => exact rfl
    | some sg => exact ⟨rfl, _, update_self seg _ _, rfl⟩

lemma sysShareUnref_others (fails : Bool) (seg : ℕ) :
    wp (attempt (sysShareUnref fails seg))
      (fun _ t => t.ents = s.ents ∧ t.nextId = s.nextId ∧ ∀ i, i ≠ seg → t.segs i = s.segs i)
      .never s := by
  rw [wp_attempt]
  cases fails with
  | true => exact ⟨rfl, rfl, fun _ _ => rfl⟩
  | false =>
    simp only [sysShareUnref, Bool.false_eq_true, if_false, getSegment, wp_rules]
    cases s.segs seg with
    | none => exact ⟨rfl, rfl, fun _ _ => rfl⟩
    | some sg => exact ⟨rfl, rfl, fun i hi => update_of_ne hi _ _⟩

lemma segmentAllocMap_outcome {c : AllocCalls} (va : Option ℕ) (hn : n < word64) :
    wp (segmentAllocMap c n va)
      (fun r t => ¬ c.Refused va (npagesOf n) ∧ ¬ c.Panics va (npagesOf n) ∧
        r = (s.nextId, va.getD c.map.va) ∧
        t = (s.alloced (npagesOf n)).mapped r.2 r.1 (npagesOf n))
      ⟨fun _ t => c.Refused va (npagesOf n) ∧ t.ents = s.ents ∧ s.nextId ≤ t.nextId ∧
          ∀ i, i ≠ s.nextId → t.segs i = s.segs i,
        fun _ _ => c.Panics va (npagesOf n)⟩ s := by
  rcases halloc : c.alloc with _ | _
  · rw [segmentAllocMap, sysSegmentAlloc, halloc, wp_bind]
    show wp _ _ _ (s.alloced (npagesOf n))
    rw [wp_bind, wp_attempt]
    refine wp_imp (asMap_outcome va hn) ?_ ?_ fun _ _ h => ⟨halloc, h⟩
    · rintro r t ⟨hr, hp, rfl, rfl⟩
      exact ⟨by simpa [AllocCalls.Refused, halloc] using hr, fun h => hp h.2, rfl, rfl⟩
    · rintro e t ⟨hr, rfl⟩
      show wp (do let _ ← attempt (sysShareUnref c.unref s.nextId); raise e) _ _ _
      rw [wp_bind]
      refine wp_of_never (sysShareUnref_others _ _) fun _ u hu => ?_
      refine ⟨Or.inr hr, hu.1, ?_, fun i hi => (hu.2.2 i hi).trans (update_of_ne hi _ _)⟩
      rw [hu.2.1]
      exact Nat.le_succ s.nextId
  · rw [segmentAllocMap, sysSegmentAlloc, halloc, wp_bind]
    exact ⟨Or.inl halloc, rfl, Nat.le_refl _, fun _ _ => rfl⟩

end Corey.User
