import Corey.Mem.Forest

/-!
Hash tables and the maps that grow them (`lib/hashtable.c`, `kern/map.c`).

A table is probed linearly. A deleted entry leaves a tombstone, which a search passes over and
an insertion reuses. A map keeps its current table in one of two page trees and moves to the
other one when the table has filled up; the entries of the table are kept in the map and not
in the bytes of the tree's pages.
-/

namespace Corey.Kern

open Corey.Comp Corey.Mem
open Corey.Mem.Forest (takePage putPage initTree)

/-! ### The hash function -/

/-- `mix64` on `(a, b, c)`, three lines at a time. -/
def mixRound (i j k : UInt64) (x : UInt64 × UInt64 × UInt64) : UInt64 × UInt64 × UInt64 :=
  let (a, b, c) := x
  let a := (a - b - c) ^^^ (c >>> i)
  let b := (b - c - a) ^^^ (a <<< j)
  let c := (c - a - b) ^^^ (b >>> k)
  (a, b, c)

def mix64 (x : UInt64 × UInt64 × UInt64) : UInt64 × UInt64 × UInt64 :=
  mixRound 12 18 22 (mixRound 35 49 11 (mixRound 38 23 5 (mixRound 43 9 8 x)))

/-- `hash2` on one word with the level the table uses. -/
def hash2 (key : ℕ) : UInt64 :=
  (mix64 (0xDEADBEEF + UInt64.ofNat key, 0xDEADBEEF, 0x9e3779b97f4a7c13 + 1)).2.2

/-! ### Tables -/

variable {V : Type}

def tomb : ℕ := 0xFFFFFFFFFFFFFFFF

structure Hashentry (V : Type) where
  key : ℕ := 0
  val : Option V := none

structure Hashtable (V : Type) where
  capacity : ℕ := 0
  size : ℕ := 0
  ent : ℕ → Hashentry V := fun _ => {}

abbrev HtM (V : Type) := Comp Errno (Hashtable V)

/-- The `i`-th place a key is looked for. -/
def Hashtable.probe (t : Hashtable V) (key i : ℕ) : ℕ :=
  (hash2 key + UInt64.ofNat i).toNat % t.capacity

def hashInit (n : ℕ) : Hashtable V := { capacity := n }

/-- The loop of `hash_put`, `k` rounds before its end: the place to write to, `none` if the
key is met first. At the end of the loop the entry looked at last is neither free nor the
key's own, which an assertion rules out. -/
def putProbe (t : Hashtable V) (key : ℕ) : ℕ → ℕ → HtM V (Option ℕ)
  | 0, _ => halt .panic
  | k + 1, i =>
    let e := t.ent (t.probe key i)
    if e.key = 0 ∨ e.key = tomb then pure (some (t.probe key i))
    else if e.key = key then pure none
    else putProbe t key k (i + 1)

def hashPut (key : ℕ) (val : V) : HtM V Unit := do
  let t ← state
  if key = 0 ∨ key = tomb then raise .inval
  else if t.size = t.capacity then raise .noSpace
  else do
    match ← putProbe t key t.capacity 0 with
    | none => raise .inval
    | some i => change fun t =>
        { t with size := t.size + 1, ent := Function.update t.ent i ⟨key, some val⟩ }

/-- The loop of `hash_get` and `hash_del`, `k` rounds before its end. -/
def getProbe (t : Hashtable V) (key : ℕ) : ℕ → ℕ → Option ℕ
  | 0, _ => none
  | k + 1, i =>
    let e := t.ent (t.probe key i)
    if e.key = key then some (t.probe key i)
    else if e.key = 0 then none
    else getProbe t key k (i + 1)

def hashFind (key : ℕ) : HtM V ℕ := do
  let t ← state
  if key = 0 ∨ key = tomb then raise .inval
  else
    match getProbe t key t.capacity 0 with
    | none => raise .notFound
    | some i => pure i

/-- A key in use has a value. -/
def hashGet (key : ℕ) : HtM V V := do
  let i ← hashFind key
  let t ← state
  need .panic (t.ent i).val

def hashDel (key : ℕ) : HtM V Unit := do
  let i ← hashFind key
  change fun t =>
    { t with size := t.size - 1, ent := Function.update t.ent i ⟨tomb, none⟩ }

/-- What `hashiter_next` returns from `i` on. -/
def Hashtable.entries (t : Hashtable V) : ℕ → ℕ → List (ℕ × V)
  | 0, _ => []
  | k + 1, i =>
    match (t.ent i).key = 0 || (t.ent i).key = tomb, (t.ent i).val with
    | false, some v => ((t.ent i).key, v) :: t.entries k (i + 1)
    | _, _ => t.entries k (i + 1)

def Hashtable.toList (t : Hashtable V) : List (ℕ × V) := t.entries t.capacity 0

/-! ### Maps -/

structure Map (V : Type) where
  table : Hashtable V := {}
  npages : ℕ := 0
  cur : Bool := false
  pid : ℕ := 0

def nHashentryPerPage : ℕ := pgsize / 16
def rehashThresh : ℕ := 70

variable {ι : Type} [DecidableEq ι]

abbrev MapM (ι V : Type) := Comp Errno (Map V × Forest ι)

def onTable {α : Type} (m : HtM V α) : MapM ι V α :=
  zoom (fun s => s.1.table) (fun t s => ({ s.1 with table := t }, s.2)) m

def mapInit (pid : ℕ) : Map V := { pid := pid }

/-- Where entry `idx` of a table in the tree `pt` is kept: the page, and the place in it. -/
def getHashEnt (pt : ι) (idx : ℕ) : Forest.ForestM ι (Option Ppn × ℕ) := do
  match ← attempt (Forest.getPage pt (idx / nHashentryPerPage) pageExcl) with
  | .error _ => halt .panic
  | .ok entries => pure (entries, idx % nHashentryPerPage)

/-- Where `page_alloc` fails, `page_free` is given the address of a variable on the stack, which
is not the address of a page. A page that the tree does not take is not freed. -/
def putTablePage (next : ι) (pid i : ℕ) : Forest.ForestM ι Ppn := do
  match ← attempt (takePage pid) with
  | .error _ => halt .panic
  | .ok va => do
    putPage next i va
    pure va

def backTablePage (next : ι) (pid i : ℕ) : MapM ι V Unit := do
  let va ← shared (putTablePage next pid i)
  shared (Forest.onMem (pageZero va))

/-- The entries of the old table are put into the new one. -/
def rehashInto : List (ℕ × V) → HtM V Unit
  | [] => pure ()
  | (k, v) :: l => do
    match ← attempt (hashPut k v) with
    | .error _ => halt .panic
    | .ok _ => rehashInto l

/-- `back` gives the two page trees of the map. -/
def rehash (back : Bool → ι) : MapM ι V Unit := do
  let s ← state
  let map := s.1
  let npages := if map.npages = 0 then 1 else map.npages * 2
  shared (initTree (back !map.cur) false map.pid)
  onErr (loop (backTablePage (back !map.cur) map.pid) 0 npages)
    (shared (Forest.free (back !map.cur)))
  onTable (put (hashInit (npages * nHashentryPerPage)))
  onTable (rehashInto map.table.toList)
  shared (Forest.free (back map.cur))
  change fun s => ({ s.1 with npages := npages, cur := !map.cur }, s.2)

/-- A failed `rehash` is not noticed here. -/
def rehashIf (back : Bool → ι) (full : Bool) : MapM ι V Unit :=
  if full then do
    let _ ← attempt (rehash back)
    pure ()
  else pure ()

/-- `percent` in `map_put` is unsigned, but computed from two numbers of type `int`. -/
def Hashtable.percent (t : Hashtable V) : ℕ :=
  if t.capacity = 0 then 100
  else if 100 * t.size % 2 ^ 32 < 2 ^ 31 then 100 * t.size % 2 ^ 32 / t.capacity
  else (2 ^ 64 - (2 ^ 32 - 100 * t.size % 2 ^ 32) / t.capacity) % 2 ^ 64

def mapPut (back : Bool → ι) (key : ℕ) (value : V) : MapM ι V Unit := do
  require (key ≠ 0)
  let s ← state
  rehashIf back (rehashThresh ≤ s.1.table.percent)
  onTable (hashPut key value)

def mapGet (key : ℕ) : MapM ι V V := onTable (hashGet key)

def mapErase (key : ℕ) : MapM ι V Unit := onTable (hashDel key)

def mapFree (back : Bool → ι) : MapM ι V Unit := do
  let s ← state
  shared (Forest.free (back s.1.cur))

end Corey.Kern
