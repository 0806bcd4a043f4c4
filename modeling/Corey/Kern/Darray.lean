import Corey.Mem.Forest

/-!
Arrays that live in page trees (`kern/darray.c`).

The arrays are a family over the same index as their page trees, so the header of an array is
kept beside its tree. An array on demand is resized without allocating anything; the others
are backed by pages at once.
-/

namespace Corey.Kern

open Corey.Comp Corey.Mem
open Corey.Mem.Forest (takePage givePage getPage putPage putNull initTree)

/-- `uint64_t` and `uintptr_t` count modulo `2 ^ 64`. -/
def word64 : ℕ := 2 ^ 64

def rounddown (a n : ℕ) : ℕ := a - a % n

/-- `ROUNDUP` adds first, so it wraps. -/
def roundup (a n : ℕ) : ℕ := rounddown ((a + (n - 1)) % word64) n

structure Darray where
  daPid : ℕ := 0
  daPp : ℕ := 0
  daEsz : ℕ := 0
  daNent : ℕ := 0
  daDemand : Bool := false

def Darray.npages (a : Darray) (n : ℕ) : ℕ := roundup n a.daPp / a.daPp

variable {ι : Type} [DecidableEq ι]

abbrev DaM (ι : Type) := Comp Errno ((ι → Darray) × Forest ι)

def head (t : ι) : DaM ι Darray := do
  let s ← state
  pure (s.1 t)

def setHead (t : ι) (a : Darray) : DaM ι Unit :=
  change fun s => (Function.update s.1 t a, s.2)

def darrayInit (t : ι) (entSize : ℕ) (onDemand : Bool) (pid : ℕ) : DaM ι Unit := do
  shared (initTree t onDemand pid)
  setHead t { daPid := pid, daPp := pgsize / entSize, daEsz := entSize, daNent := 0,
              daDemand := onDemand }

def darrayFree (t : ι) : DaM ι Unit := shared (Forest.free t)

/-- The page of entry `i` and the place of the entry in it. -/
def darrayGet (t : ι) (i : ℕ) (mode : PageSharingMode) : DaM ι (Option Ppn × ℕ) := do
  let a ← head t
  if a.daNent ≤ i then
    raise .inval
  else do
    let b ← shared (getPage t (i / a.daPp) mode)
    pure (b, i % a.daPp * a.daEsz)

/-- Both loops that drop pages stop the machine when `pagetree_put_page` fails. -/
def dropPage (t : ι) (i : ℕ) : DaM ι Unit := do
  match ← attempt (shared (putNull t i)) with
  | .ok _ => pure ()
  | .error _ => halt .panic

/-- A new page at place `i` of a tree, or nothing. -/
def putNewPage (t : ι) (pid i : ℕ) : Forest.ForestM ι Ppn := do
  let p ← takePage pid
  onErr (putPage t i p) (givePage p)
  pure p

def clearPage (clear : Bool) (p : Ppn) : DaM ι Unit :=
  if clear then shared (Forest.onMem do
    pageZero p
    setClear p)
  else pure ()

/-- One round of the allocating loop: page `i` is backed, or the pages from `curnpg` on that
have been backed before it are dropped again. -/
def growPage (t : ι) (pid curnpg : ℕ) (clear : Bool) (i : ℕ) : DaM ι Unit := do
  let p ← onErr (shared (putNewPage t pid i)) (loop (dropPage t) curnpg (i - curnpg))
  clearPage clear p

/-- An array on demand skips the allocating loop. -/
def growPages (t : ι) (curnpg npg : ℕ) (clear : Bool) : DaM ι Unit := do
  let a ← head t
  if a.daDemand = false then
    loop (growPage t a.daPid curnpg clear) curnpg (npg - curnpg)

/-- `darray_set_nent_internal` -/
def darraySetNent (t : ι) (n : ℕ) (clear : Bool) : DaM ι Unit := do
  let a ← head t
  loop (dropPage t) (a.npages n) (a.npages a.daNent - a.npages n)
  growPages t (a.npages a.daNent) (a.npages n) clear
  setHead t { a with daNent := n }

def darrayGrowNent (t : ι) (n : ℕ) : DaM ι Unit := do
  let a ← head t
  if a.daNent < n then darraySetNent t n true

def darrayCopy (src dst : ι) (mode : PageSharingMode) : DaM ι Unit := do
  let a ← head src
  let b ← head dst
  if b.daNent ≠ 0 ∨ a.daNent = 0 then
    raise .inval
  else do
    shared (Forest.copy src dst mode)
    setHead dst { b with daNent := a.daNent }

end Corey.Kern
