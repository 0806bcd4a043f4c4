import Corey.Dev.E1000
import Corey.Mem.Counts

/-!
Requests to a disk (`kern/disk.c`).

A request is a header in a page of a segment, with the data behind it. While the disk works on it,
the pages of the data and the page of the header are pinned. The array of the data pages has room
for 16 of them; 64 kilobytes that do not begin with a page are in 17, and what is written behind
the array goes into the pointer to the header and the list of the disks.
-/

namespace Corey.Dev

open Corey.Comp Corey.Mem Corey.Kern
open Corey.Kern.Uaccess (diskbufSize)

def diskReqmax : ℕ := 65536
def diskFeedmax : ℕ := diskReqmax / pgsize

/-- `struct kiovec` -/
structure Kiovec where
  iovBase : Option ℕ := none
  iovLen : ℕ := 0

/-- The base of entry 16 of the array is `dk_hdr`, and its length is the first half of the link
behind that. -/
structure Disk where
  machine : Machine
  dkIov : ℕ → Kiovec := fun _ => {}

namespace Disk

def dkHdr (s : Disk) : Option ℕ := (s.dkIov diskFeedmax).iovBase

def setBase (i : ℕ) (va : Option ℕ) (s : Disk) : Disk :=
  { s with dkIov := Function.update s.dkIov i { s.dkIov i with iovBase := va } }

def setIov (i va len : ℕ) (s : Disk) : Disk :=
  { s with dkIov := Function.update s.dkIov i ⟨some va, len⟩ }

def mem (s : Disk) : Memory := s.machine.forest.mem

end Disk

abbrev DiskM := Comp Errno Disk

def onMachine {α : Type} (m : KM α) : DiskM α :=
  zoom Disk.machine (fun t s => { s with machine := t }) m

/-- `pagetree_decref_hw` of the page an address is in. -/
def decrefHw (va : ℕ) : KM Unit := onForest (Forest.onMem (pagetreeDecrefHw (va / pgsize)))

/-- The page of the header is pinned once more. -/
def resetHdr : DiskM Unit := do
  let s ← state
  match s.dkHdr with
  | none => pure ()
  | some hdr => do
    onMachine (increfHw hdr)
    change (Disk.setBase diskFeedmax none)

/-- The loop of `disk_reset` from entry `i` on. The header has been cleared, so that it ends at
entry 16. -/
def resetIov : ℕ → ℕ → DiskM Unit
  | 0, _ => halt .panic
  | k + 1, i => do
    let s ← state
    match (s.dkIov i).iovBase with
    | none => pure ()
    | some va => do
      onMachine (decrefHw va)
      change (Disk.setBase i none)
      resetIov k (i + 1)

def diskReset : DiskM Unit := do
  resetHdr
  resetIov (diskFeedmax + 1) 0

/-- What the completion writes into the header is left out. -/
def diskIoCb : DiskM Unit := do
  let s ← state
  let _ ← need .panic s.dkHdr
  diskReset

/-- One round of the loop of `disk_feed`: page `npage` of the segment is pinned and entered. -/
def feedPage (sg : Kobj) (mode : PageSharingMode) (npage i pgoff bytes : ℕ) : DiskM Unit := do
  let pp ← onErr (onMachine (segmentGetPage sg npage mode)) diskReset
  let p ← need .panic pp
  onMachine (increfHw (p * pgsize))
  change (Disk.setIov i (p * pgsize + pgoff) bytes)

/-- The loop of `disk_feed`. Each round takes at least a byte, so that there are no more than
`reqcount` of them; the number that is left is the first argument. -/
def feedIov (sg : Kobj) (mode : PageSharingMode) (offset reqcount : ℕ) :
    ℕ → ℕ → ℕ → ℕ → DiskM Unit
  | 0, _, _, _ => pure ()
  | k + 1, i, count, pgoff =>
    if reqcount = count then pure ()
    else do
      let bytes := min (reqcount - count) (pgsize - pgoff)
      feedPage sg mode ((offset + count) % word64 / pgsize) i pgoff bytes
      feedIov sg mode offset reqcount k (i + 1) (count + bytes) 0

/-- A request: the segment with the offset of the header in it and the address of the header, what
the header says, and what the driver answers (`dk_issue`). -/
structure Request where
  sg : Kobj
  offset : ℕ
  hdr : ℕ
  address : ℕ
  count : ℕ
  type : ℕ
  answer : Option Errno := none

namespace Request

def mode (r : Request) : PageSharingMode :=
  if r.type = devioIn then pageSharedCow else pageSharedCor

/-- Where the data begins. -/
def start (r : Request) : ℕ := (r.offset + diskbufSize) % word64

/-- The header is refused. -/
def Invalid (r : Request) : Prop :=
  r.address % 512 ≠ 0 ∨ r.count % 512 ≠ 0 ∨ diskReqmax < r.count
  deriving Decidable

end Request

def diskFeed (r : Request) : DiskM Unit :=
  if r.Invalid then raise .inval
  else do
    feedIov r.sg r.mode r.start r.count r.count 0 0 (r.start % pgsize)
    change (Disk.setBase diskFeedmax (some r.hdr))
    onMachine (increfHw r.hdr)
    match r.answer with
    | none => pure ()
    | some e => raise e

/-- A request that is accepted completes before the next one is fed. -/
def Request.body (r : Request) : DiskM Unit := do
  diskFeed r
  diskIoCb

def requests (s0 : Disk) : System Disk Request where
  init s := s = s0
  step r s := r.body.next s

/-! ### What a request should leave behind -/

/-- Every page is pinned and referenced as often as before. -/
def Restored (s s' : Disk) : Prop :=
  ∀ p, (s'.mem.info p).piHwRef = (s.mem.info p).piHwRef ∧
    (s'.mem.info p).piRef = (s.mem.info p).piRef

/-- There is a round `i` of the loop. -/
def Request.Has (r : Request) (i : ℕ) : Prop :=
  r.count ≠ 0 ∧ i * pgsize < r.start % pgsize + r.count
  deriving Decidable

/-- The page of the data in round `i`. -/
def Request.page (r : Request) (i : ℕ) : ℕ := (r.start / pgsize + i) % (word64 / pgsize)

/-- A page of the segment is there, and need not be copied first. -/
def Ready (s : Machine) (sg : Kobj) (k : ℕ) (mode : PageSharingMode) : Prop :=
  k < (s.darray (sgPages sg)).daNent ∧ (s.forest.tree (sgPages sg)).Ready k mode

/-- `segment_get_page` returns an error: the page is behind the end of the segment, or there is no
memory. -/
def Fails (s : Machine) (sg : Kobj) (k : ℕ) (mode : PageSharingMode) : Prop :=
  (s.darray (sgPages sg)).daNent ≤ k ∨ (s.forest.tree (sgPages sg)).Fails s.forest.mem k mode

/-- The header is refused, or a page cannot be got and all pages before it are there. -/
def Refused (s : Disk) (r : Request) : Prop :=
  r.Invalid ∨ ∃ i, r.Has i ∧ (∀ j < i, Ready s.machine r.sg (r.page j) r.mode) ∧
    Fails s.machine r.sg (r.page i) r.mode

/-- The state of the kernel between requests: nothing is pending, the arrays of segments are arrays
of pages, no tree has a page that is free, and counts have 32 bits. -/
structure Proper (s : Disk) : Prop where
  idle : ∀ i ≤ diskFeedmax, (s.dkIov i).iovBase = none
  arrays : ∀ sg, (s.machine.obj sg).live = true → (s.machine.obj sg).koType = .segment →
    (s.machine.darray (sgPages sg)).daPp = 1
  used : ∀ t k x, (s.machine.forest.tree t).page k = some x → (s.mem.info x).piFreepage = false
  counts : ∀ x, (s.mem.info x).piRef < Mem.word32 ∧ (s.mem.info x).piHwRef < Mem.word32
  wired : ∀ pid, s.mem.nodeid pid < s.mem.nmemnode

end Corey.Dev
