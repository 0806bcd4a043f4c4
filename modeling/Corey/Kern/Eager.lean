import Corey.Kern.Segment

/-!
Segments as their users may think of them.

In this model every segment has bytes of its own: a copy duplicates them at once, and the pages
a segment grows by are zero.
-/

namespace Corey.Kern

open Function Corey.Mem

/-- What can be asked of segments. An access reads or writes one byte of a page. -/
inductive SegmentOp
  | alloc (pid : ℕ)
  | setNbytes (sg : Kobj) (numBytes : ℕ)
  | copy (sg : Kobj) (onRead : Bool) (pid : ℕ)
  | free (sg : Kobj)
  | load (sg : Kobj) (npage : ℕ) (offset : Fin pgsize)
  | store (sg : Kobj) (npage : ℕ) (offset : Fin pgsize) (byte : UInt8)

inductive Answer
  | done
  | segment (sg : Kobj)
  | byte (x : UInt8)
  | error (e : Errno)
  deriving DecidableEq

/-- `npages` and `bytes` say nothing about a segment that is not `live`. -/
structure Eager where
  born : ℕ
  live : Kobj → Bool
  npages : Kobj → ℕ
  bytes : Kobj → ℕ → Page

namespace Eager

def init : Eager := ⟨0, fun _ => false, fun _ => 0, fun _ _ => zeroPage⟩

def alloc (r : Eager) : Eager :=
  { r with
    born := r.born + 1
    live := update r.live r.born true
    npages := update r.npages r.born 0 }

/-- Pages past the old end are zero. -/
def resize (r : Eager) (sg : Kobj) (n : ℕ) : Eager :=
  { r with
    npages := update r.npages sg n
    bytes := update r.bytes sg fun k =>
      if k < r.npages sg then r.bytes sg k else zeroPage }

/-- The new segment gets the pages and the bytes of `sg`. -/
def duplicate (r : Eager) (sg : Kobj) : Eager :=
  { r.alloc with
    npages := update r.npages r.born (r.npages sg)
    bytes := update r.bytes r.born (r.bytes sg) }

def free (r : Eager) (sg : Kobj) : Eager := { r with live := update r.live sg false }

def write (r : Eager) (sg : Kobj) (npage : ℕ) (offset : Fin pgsize) (x : UInt8) : Eager :=
  { r with bytes := update r.bytes sg (update (r.bytes sg) npage
      (update (r.bytes sg npage) offset x)) }

/-- Why an access is refused: the segment has no such page, or is larger than segments can be. -/
def refused (r : Eager) (sg : Kobj) (npage : ℕ) : Option Errno :=
  if r.npages sg ≤ npage then some .inval
  else if treePages ≤ npage then some .noSpace
  else none

/-- There is no answer to a question about a segment that does not exist. The pages of a segment
are counted with the `ROUNDUP` of the kernel, which has 64 bits and wraps: almost `2 ^ 64` bytes
have no page. An empty segment is not copied, but the segment for the copy has been allocated. -/
def step (op : SegmentOp) (r : Eager) : Option (Answer × Eager) :=
  match op with
  | .alloc _ => some (.segment r.born, r.alloc)
  | .setNbytes sg numBytes =>
    if r.live sg then some (.done, r.resize sg (roundup numBytes pgsize / pgsize)) else none
  | .copy sg _ _ =>
    if r.live sg then
      if r.npages sg = 0 then some (.error .inval, r.alloc)
      else some (.segment r.born, r.duplicate sg)
    else none
  | .free sg => if r.live sg then some (.done, r.free sg) else none
  | .load sg npage offset =>
    if r.live sg then
      match r.refused sg npage with
      | some e => some (.error e, r)
      | none => some (.byte (r.bytes sg npage offset), r)
    else none
  | .store sg npage offset x =>
    if r.live sg then
      match r.refused sg npage with
      | some e => some (.error e, r)
      | none => some (.done, r.write sg npage offset x)
    else none

end Eager

def eager : Process Eager SegmentOp Answer where
  step := Eager.step

end Corey.Kern
