import Corey.Mem.Page

/-!
Page trees (`kern/pagetree.c`).

A page tree holds three entries itself and four indirect blocks of one to four levels. A
block fills a page: at level 0 with entries, above with pointers to blocks one level down.
Since the two kinds of block are walked in the same way, what a block of level `l` holds is a
`Slot l`, and a `Slot (l + 1)` is a pointer to a block of level `l` or null. The words of a
block are kept in the tree and not in the bytes of its page.
-/

namespace Corey.Mem

open Function Corey.Comp

/-- `SAFE_TYPE(int)`: three values have a name, a zeroed entry holds 0. -/
abbrev PageSharingMode := ℤ

def pageSharedCow : PageSharingMode := 1
def pageSharedCor : PageSharingMode := 2
def pageExcl : PageSharingMode := 3

structure PagetreeEntry where
  page : Option Ppn := none
  mode : PageSharingMode := 0
  deriving DecidableEq

/-- `PAGETREE_ENTRIES_PER_PAGE` at level 0, `PAGETREE_INDIRECT_PER_PAGE` above: an entry
takes 24 bytes, a pointer 8. -/
def width : ℕ → ℕ
  | 0 => pgsize / 24
  | _ + 1 => pgsize / 8

inductive Slot : ℕ → Type
  | ent (e : PagetreeEntry) : Slot 0
  | null {l : ℕ} : Slot (l + 1)
  | block {l : ℕ} (page : Ppn) (slot : ℕ → Slot l) : Slot (l + 1)

/-- A slot of a page that `page_zero` has cleared. -/
def zeroSlot : (l : ℕ) → Slot l
  | 0 => .ent {}
  | _ + 1 => .null

def zeroBlock (l : ℕ) (p : Ppn) : Slot (l + 1) := .block p fun _ => zeroSlot l

/-- The number of data pages below a slot. -/
def span : ℕ → ℕ
  | 0 => 1
  | l + 1 => width l * span l

def directEntries : ℕ := 3
def indirectEntries : ℕ := 4

structure Pagetree where
  ptDirect : ℕ → PagetreeEntry
  ptIndir : (i : ℕ) → Slot (i + 1)
  pid : ℕ
  demand : Bool

/-- A place in a page tree: a direct entry, or the `n`-th page below indirect block `i`. -/
inductive EntPtr
  | direct (i : ℕ)
  | indirect (i n : ℕ)
  deriving DecidableEq

/-- The entry of the `n`-th page below a slot. -/
def Slot.entry : {l : ℕ} → Slot l → ℕ → PagetreeEntry
  | 0, .ent e, _ => e
  | _ + 1, .null, _ => {}
  | l + 1, .block _ f, n => (f (n / span l)).entry (n % span l)

def Slot.setEntry : {l : ℕ} → Slot l → ℕ → PagetreeEntry → Slot l
  | 0, .ent _, _, e => .ent e
  | _ + 1, .null, _, _ => .null
  | l + 1, .block p f, n, e =>
    .block p (update f (n / span l) ((f (n / span l)).setEntry (n % span l) e))

def Pagetree.get (pt : Pagetree) : EntPtr → PagetreeEntry
  | .direct i => pt.ptDirect i
  | .indirect i n => (pt.ptIndir i).entry n

def Pagetree.set (pt : Pagetree) (e : PagetreeEntry) : EntPtr → Pagetree
  | .direct i => { pt with ptDirect := update pt.ptDirect i e }
  | .indirect i n =>
    { pt with ptIndir := update pt.ptIndir i ((pt.ptIndir i).setEntry n e) }

def entAt (p : EntPtr) : Ptr Pagetree PagetreeEntry :=
  ⟨fun pt => pt.get p, fun e pt => pt.set e p⟩

def directAt (i : ℕ) : Ptr Pagetree PagetreeEntry :=
  ⟨fun pt => pt.ptDirect i,
   fun e pt => { pt with ptDirect := update pt.ptDirect i e }⟩

def indirAt (i : ℕ) : Ptr Pagetree (Slot (i + 1)) :=
  ⟨fun pt => pt.ptIndir i, fun s pt => { pt with ptIndir := update pt.ptIndir i s }⟩

def Slot.ent? : Slot 0 → PagetreeEntry
  | .ent e => e

def inEnt : Ptr (Slot 0) PagetreeEntry := ⟨Slot.ent?, fun e _ => .ent e⟩

/-- Slot `i` of the block that a slot one level up points to. -/
def below {l : ℕ} (i : ℕ) : Ptr (Slot (l + 1)) (Slot l) where
  get
    | .block _ f => f i
    | .null => zeroSlot l
  set a
    | .block p f => .block p (update f i a)
    | .null => .null

def Slot.isNull {l : ℕ} : Slot (l + 1) → Bool
  | .null => true
  | .block _ _ => false

abbrev PtM (α : Type) := Comp Errno (α × Memory)

/-! ### Reference counts -/

def pagetreeDecref (p : Ppn) : MemM Unit := do
  change fun m => m.setInfo p { m.info p with piRef := atomicDec (m.info p).piRef }
  let m ← state
  if (m.info p).piRef = 0 then do
    require ((m.info p).piHwRef = 0)
    pageFree p

def pagetreeIncref (p : Ppn) : MemM Unit :=
  change fun m => m.setInfo p { m.info p with piRef := atomicInc (m.info p).piRef }

def pagetreeIncrefHw (p : Ppn) : MemM Unit := do
  let m ← state
  require ((m.info p).piRef ≠ 0)
  require ((m.info p).piHwRef ≤ (m.info p).piRef)
  pagetreeIncref p
  change fun m => m.setInfo p { m.info p with piHwRef := atomicInc (m.info p).piHwRef }

def pagetreeDecrefHw (p : Ppn) : MemM Unit := do
  let m ← state
  require ((m.info p).piHwRef ≠ 0)
  require ((m.info p).piHwRef ≤ (m.info p).piRef)
  change fun m => m.setInfo p { m.info p with piHwRef := atomicDec (m.info p).piHwRef }
  pagetreeDecref p

/-! ### Reading and writing one page -/

/-- A null `pe->page` is read through by the `memcpy`. -/
def pagetreeCopyPage (pid : ℕ) : PtM PagetreeEntry Unit := do
  let pp ← shared (pageAlloc pid)
  let s ← state
  let old ← need .panic s.1.page
  shared do
    memcpy pp old
    setClear pp
    pagetreeIncref pp
    pagetreeDecref old
  change fun s => ({ page := some pp, mode := pageExcl }, s.2)

/-- A null pointer gets a cleared block to point to. -/
def ensureBlock (pid : ℕ) {l : ℕ} : PtM (Slot (l + 1)) Unit := do
  let s ← state
  if s.1.isNull then do
    let va ← shared (pageAlloc pid)
    shared (pageZero va)
    change fun s => (zeroBlock l va, s.2)

/-- The blocks on the way to page `n` below a slot are there afterwards. -/
def pagetreeGetEntpIndirect (pid : ℕ) : (l : ℕ) → ℕ → PtM (Slot l) Unit
  | 0, _ => pure ()
  | l + 1, n => do
    ensureBlock pid
    require (l = 0 → n < width 0)
    focus (below (n / span l)) (pagetreeGetEntpIndirect pid l (n % span l))

/-- The loop of `pagetree_get_entp` over the indirect blocks from `i` on, `k` of them left. -/
def locateIndirect : ℕ → ℕ → ℕ → ℕ → Option EntPtr
  | 0, _, _, _ => none
  | k + 1, i, npage, numIndirectPages =>
    if npage < numIndirectPages then some (.indirect i npage)
    else locateIndirect k (i + 1) (npage - numIndirectPages) (numIndirectPages * width 1)

/-- The place of a page, if the tree has one for it. -/
def locate (npage : ℕ) : Option EntPtr :=
  if npage < directEntries then some (.direct npage)
  else locateIndirect indirectEntries 0 (npage - directEntries) (width 0)

def pagetreeGetEntp (npage : ℕ) : PtM Pagetree EntPtr := do
  match locate npage with
  | none => raise .noSpace
  | some (.direct i) => pure (.direct i)
  | some (.indirect i n) =>
    let s ← state
    focus (indirAt i) (pagetreeGetEntpIndirect s.1.pid (i + 1) n)
    pure (.indirect i n)

/-- The first half of `pagetree_get_page` on the entry it has found. -/
def breakSharing (pid : ℕ) (mode : PageSharingMode) : PtM PagetreeEntry Unit := do
  let s ← state
  if s.1.mode = pageSharedCor then do
    require (mode ≠ pageExcl)
    pagetreeCopyPage pid
  else if s.1.mode = pageSharedCow then do
    require (mode ≠ pageExcl)
    if mode = pageSharedCow then pagetreeCopyPage pid

/-- The second half: `page_alloc` is inside an assertion. -/
def demandPage (pid : ℕ) (demand : Bool) : PtM PagetreeEntry Unit := do
  let s ← state
  if s.1.page = none ∧ demand = true then do
    let r ← attempt (shared (pageAlloc pid))
    match r with
    | .error _ => halt .panic
    | .ok p =>
      shared (pagetreeIncref p)
      change fun s => ({ page := some p, mode := pageExcl }, s.2)

def pagetreeGetEnt (pid : ℕ) (demand : Bool) (mode : PageSharingMode) :
    PtM PagetreeEntry (Option Ppn) := do
  breakSharing pid mode
  demandPage pid demand
  let s ← state
  pure s.1.page

def pagetreeGetPage (npage : ℕ) (mode : PageSharingMode) : PtM Pagetree (Option Ppn) := do
  let pe ← pagetreeGetEntp npage
  let s ← state
  focus (entAt pe) (pagetreeGetEnt s.1.pid s.1.demand mode)

/-- An entry lets go of its page. -/
def pagetreeFreeEnt (e : PagetreeEntry) : MemM Unit :=
  match e.page with
  | some p => pagetreeDecref p
  | none => pure ()

lemma pagetreeFreeEnt_some {e : PagetreeEntry} {p : Ppn} (h : e.page = some p) :
    pagetreeFreeEnt e = pagetreeDecref p := by rw [pagetreeFreeEnt, h]

lemma pagetreeFreeEnt_none {e : PagetreeEntry} (h : e.page = none) :
    pagetreeFreeEnt e = pure () := by rw [pagetreeFreeEnt, h]

def increfIf : Option Ppn → MemM Unit
  | some p => pagetreeIncref p
  | none => pure ()

def pagetreePutEnt (page : Option Ppn) : PtM PagetreeEntry Unit := do
  let s ← state
  shared (pagetreeFreeEnt s.1)
  shared (increfIf page)
  change fun s => ({ page := page, mode := pageExcl }, s.2)

def pagetreePutPage (npage : ℕ) (page : Option Ppn) : PtM Pagetree Unit := do
  let pe ← pagetreeGetEntp npage
  focus (entAt pe) (pagetreePutEnt page)

/-! ### Freeing -/

/-- Above the entries this is `pagetree_free_indirect`. -/
def pagetreeFreeSlot : {l : ℕ} → Slot l → MemM Unit
  | 0, .ent e => pagetreeFreeEnt e
  | _ + 1, .null => pure ()
  | l + 1, .block p f => do
    loop (fun i => pagetreeFreeSlot (f i)) 0 (width l)
    pageFree p

/-- The mode of a direct entry stays behind. -/
def freeDirect (i : ℕ) : PtM Pagetree Unit := do
  let s ← state
  shared (pagetreeFreeEnt (s.1.ptDirect i))
  focus (directAt i) (change fun s => ({ s.1 with page := none }, s.2))

def freeIndir (i : ℕ) : PtM Pagetree Unit := do
  let s ← state
  shared (pagetreeFreeSlot (s.1.ptIndir i))
  focus (indirAt i) (change fun s => (.null, s.2))

def pagetreeFree : PtM Pagetree Unit := do
  loop freeDirect 0 directEntries
  loop freeIndir 0 indirectEntries

/-! ### Copying -/

/-- On the source's entry and the destination's. -/
def pagetreeCopyEnt (mode : PageSharingMode) (pid : ℕ) :
    PtM (PagetreeEntry × PagetreeEntry) Unit := do
  let s ← state
  let src ← need .panic s.1.1.page
  if mode = pageExcl then do
    let p ← shared (pageAlloc pid)
    focus Ptr.snd (change fun s => ({ s.1 with page := some p }, s.2))
    shared do
      pagetreeIncref p
      memcpy p src
  else do
    focus Ptr.snd (change fun s => ({ s.1 with page := some src }, s.2))
    shared (pagetreeIncref src)
    focus Ptr.fst (change fun s => ({ s.1 with mode := pageSharedCow }, s.2))
  focus Ptr.snd (change fun s => ({ s.1 with mode := mode }, s.2))

/-- An entry is copied if it holds a page. -/
def copyEntIf (mode : PageSharingMode) (pid : ℕ) : PtM (PagetreeEntry × PagetreeEntry) Unit := do
  let s ← state
  if s.1.1.page ≠ none then pagetreeCopyEnt mode pid

/-- Above the entries this is `pagetree_copy_indirect`. -/
def pagetreeCopySlot (mode : PageSharingMode) (pid : ℕ) : (l : ℕ) → PtM (Slot l × Slot l) Unit
  | 0 => focus ((Ptr.fst.comp inEnt).both (Ptr.snd.comp inEnt)) (copyEntIf mode pid)
  | l + 1 => do
    let s ← state
    if s.1.1.isNull = false then do
      require (s.1.2.isNull = true)
      let p ← shared (pageAlloc pid)
      shared (pageZero p)
      focus Ptr.snd (change fun s => (zeroBlock l p, s.2))
      loop (fun i => focus ((Ptr.fst.comp (below i)).both (Ptr.snd.comp (below i)))
        (pagetreeCopySlot mode pid l)) 0 (width l)

section Copy

variable {σ : Type} (src dst : Ptr σ Pagetree) (mode : PageSharingMode)

/-- The two loops of `pagetree_copy`. -/
def copyEntries (pid : ℕ) : PtM σ Unit := do
  loop (fun i => focus ((src.comp (directAt i)).both (dst.comp (directAt i)))
    (copyEntIf mode pid)) 0 directEntries
  loop (fun i => focus ((src.comp (indirAt i)).both (dst.comp (indirAt i)))
    (pagetreeCopySlot mode pid (i + 1))) 0 indirectEntries

/-- The two trees are places in one state, so that a tree can be copied to itself. -/
def pagetreeCopy : PtM σ Unit := do
  focus dst pagetreeFree
  let s ← state
  focus dst (change fun t => ({ t.1 with demand := (src.get s.1).demand }, t.2))
  onErr (copyEntries src dst mode (dst.get s.1).pid) (focus dst pagetreeFree)

end Copy

def pagetreeInit (onDemand : Bool) (pid : ℕ) : Pagetree where
  ptDirect _ := {}
  ptIndir _ := .null
  pid := pid
  demand := onDemand

end Corey.Mem
