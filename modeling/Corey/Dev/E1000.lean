import Corey.Kern.Uaccess

/-!
Buffers for a network card (`device_buf`, `kern/nic.c`, `dev/e1000.c`).

A buffer is a header in a page of a segment, with the data behind it. The card is given the
physical address of the data in a descriptor; how much it reads from there the header says, and
how much it writes there is a setting of the card. Kernel addresses are physical addresses here.
-/

namespace Corey.Dev

open Function Corey.Comp Corey.Mem Corey.Kern
open Corey.Kern.Uaccess (diskbufSize)

/-- The values of `devio_type` for a buffer to receive into, or to send. -/
def devioIn : ℕ := 0
def devioOut : ℕ := 1

/-- `sizeof(struct netbuf_hdr)` -/
def netbufSize : ℕ := 8

def e1000RxSlots : ℕ := 1024
def e1000TxSlots : ℕ := 1024

/-- `RCTL_2k` -/
def rxBufSize : ℕ := 2048

structure BufferSlot where
  nb : ℕ
  sgId : ℕ
  offset : ℕ
deriving DecidableEq

/-- What a descriptor makes the card access: a physical address and a length. -/
structure Descriptor where
  addr : ℕ
  len : ℕ

/-- The descriptors of one direction. There is no head when the card has nothing to do. -/
structure Ring where
  head : Option ℕ := none
  nextq : ℕ := 0
  slot : ℕ → Option BufferSlot := fun _ => none
  desc : ℕ → Descriptor := fun _ => ⟨0, 0⟩

structure Card where
  tx : Ring := {}
  rx : Ring := {}

structure Nic where
  machine : Machine
  card : Card := {}

abbrev NM := Comp Errno Nic

def kern {α : Type} (m : KM α) : NM α := zoom Nic.machine (fun t s => { s with machine := t }) m

/-- `pagetree_incref_hw` of the page an address is in. -/
def increfHw (va : ℕ) : KM Unit := onForest (Forest.onMem (pagetreeIncrefHw (va / pgsize)))

/-- A buffer takes the next slot of a ring. -/
def Ring.add (r : Ring) (slots : ℕ) (b : BufferSlot) (len : ℕ) : Ring where
  head := some (r.head.getD r.nextq)
  nextq := (r.nextq + 1) % slots
  slot := update r.slot r.nextq (some b)
  desc := update r.desc r.nextq ⟨b.nb + netbufSize, len⟩

/-- What the functions for both directions do. -/
def addBuf (ring : Card → Ring) (set : Ring → Card → Card) (slots len : ℕ) (refused : Bool)
    (b : BufferSlot) : NM Unit := do
  let s ← state
  if (ring s.card).head = some (ring s.card).nextq then raise .noSpace
  else if refused then raise .inval
  else do
    kern (increfHw b.nb)
    change fun s => { s with card := set ((ring s.card).add slots b len) s.card }

def e1000AddTxbuf (sgId offset nb size : ℕ) : NM Unit :=
  addBuf Card.tx (fun r c => { c with tx := r }) e1000TxSlots size (1522 < size) ⟨nb, sgId, offset⟩

/-- The size in the header has to be at least that of a packet. It is not what the card is told. -/
def e1000AddRxbuf (sgId offset nb size : ℕ) : NM Unit :=
  addBuf Card.rx (fun r c => { c with rx := r }) e1000RxSlots rxBufSize (size < 1522)
    ⟨nb, sgId, offset⟩

/-- The size is what the header has when it is read. -/
def nicFeed (sg : Kobj) (offset db type size : ℕ) : NM Unit := do
  let id ← kern (idOf sg)
  if type = devioIn then e1000AddRxbuf id offset db size
  else if type = devioOut then e1000AddTxbuf id offset db size
  else raise .inval

/-- `device_buf` for a card. The header that has to fit into the page is that of a disk. -/
def deviceBuf (sg : Kobj) (offset type size : ℕ) : NM Unit := do
  let pp ← kern (segmentGetPage sg (offset / pgsize) pageSharedCow)
  if pgsize - offset % pgsize < diskbufSize then raise .inval
  else do
    let p ← need .panic pp
    nicFeed sg offset (p * pgsize + offset % pgsize) type size

/-! ### What the card is given -/

variable {sg : Kobj} {offset type size : ℕ} {s s' : Nic}

def Card.ring (c : Card) (type : ℕ) : Ring := if type = devioIn then c.rx else c.tx

/-- How much the card accesses. -/
def dmaLen (type size : ℕ) : ℕ := if type = devioIn then rxBufSize else size

/-- The memory a descriptor names lies in one page. -/
def Descriptor.Within (d : Descriptor) (p : Ppn) : Prop :=
  p * pgsize ≤ d.addr ∧ d.addr + d.len ≤ (p + 1) * pgsize

/-- A buffer behind a header in the page `p` has been added to the ring, and the page pinned. -/
structure Added (offset type size : ℕ) (p : Ppn) (s t s' : Nic) : Prop where
  card : t.card = s.card
  pinned : (onForest (Forest.onMem (pagetreeIncrefHw p))).result t.machine = some ((), s'.machine)
  desc : (s'.card.ring type).desc (s.card.ring type).nextq =
    ⟨p * pgsize + offset % pgsize + netbufSize, dmaLen type size⟩

lemma page_of_address (p : Ppn) : (p * pgsize + offset % pgsize) / pgsize = p := by
  have hlt : offset % pgsize < pgsize := Nat.mod_lt _ (by decide)
  rw [Nat.mul_comm, Nat.mul_add_div (by decide), Nat.div_eq_of_lt hlt, Nat.add_zero]

lemma kern_eq_ok {α : Type} {m : KM α} {a : α} (h : kern m s = (.ok a, s')) :
    m s.machine = (.ok a, s'.machine) ∧ s'.card = s.card := by
  rw [kern, zoom, Prod.mk.injEq] at h
  obtain ⟨hok, rfl⟩ := h
  exact ⟨Prod.ext hok rfl, rfl⟩

lemma addBuf_eq_ok {ring : Card → Ring} {set : Ring → Card → Card} {slots len : ℕ} {refused : Bool}
    {b : BufferSlot} (h : addBuf ring set slots len refused b s = (.ok (), s')) :
    increfHw b.nb s.machine = (.ok (), s'.machine) ∧
      s'.card = set ((ring s.card).add slots b len) s.card := by
  obtain ⟨u, t, hstate, h⟩ := bind_eq_ok h
  cases hstate
  split_ifs at h
  · cases h
  · cases h
  · obtain ⟨_, t, hpin, h⟩ := bind_eq_ok h
    cases h
    obtain ⟨hpin, hcard⟩ := kern_eq_ok hpin
    rw [← hcard]
    exact ⟨hpin, rfl⟩

lemma idOf_eq_ok {t t' : Machine} {id : ℕ} (h : idOf sg t = (.ok id, t')) : t' = t := by
  obtain ⟨o, u, hderef, h⟩ := bind_eq_ok h
  cases h
  exact wp_ok (Q := fun _ u => u = t) (X := .any) (by simp [wp_deref]) hderef

lemma nicFeed_added {p : Ppn} {t : Nic} (hcard : t.card = s.card)
    (h : nicFeed sg offset (p * pgsize + offset % pgsize) type size t = (.ok (), s')) :
    Added offset type size p s t s' := by
  obtain ⟨id, u, hid, h⟩ := bind_eq_ok h
  obtain ⟨hid, hu⟩ := kern_eq_ok hid
  have hsame : u.machine = t.machine := idOf_eq_ok hid
  by_cases hin : type = devioIn
  · rw [if_pos hin] at h
    obtain ⟨hpin, hadd⟩ := addBuf_eq_ok h
    rw [increfHw, page_of_address, hsame] at hpin
    refine ⟨hcard, result_eq_some.mpr hpin, ?_⟩
    rw [hadd, hu, hcard, Card.ring, Card.ring, if_pos hin, if_pos hin, dmaLen, if_pos hin]
    exact update_self _ _ _
  · rw [if_neg hin] at h
    by_cases hout : type = devioOut
    · rw [if_pos hout] at h
      obtain ⟨hpin, hadd⟩ := addBuf_eq_ok h
      rw [increfHw, page_of_address, hsame] at hpin
      refine ⟨hcard, result_eq_some.mpr hpin, ?_⟩
      rw [hadd, hu, hcard, Card.ring, Card.ring, if_neg hin, if_neg hin, dmaLen, if_neg hin]
      exact update_self _ _ _
    · rw [if_neg hout] at h
      cases h

lemma deviceBuf_added (h : (deviceBuf sg offset type size).result s = some ((), s')) :
    ∃ p t, (kern (segmentGetPage sg (offset / pgsize) pageSharedCow)).result s = some (some p, t) ∧
      Added offset type size p s t s' := by
  obtain ⟨pp, t, hpage, h⟩ := bind_eq_ok (result_eq_some.mp h)
  split_ifs at h
  · cases h
  · cases pp with
    | none => cases h
    | some p => exact ⟨p, t, result_eq_some.mpr hpage, nicFeed_added (kern_eq_ok hpage).2 h⟩

/-- **Where the card reads and writes.** For every buffer that is accepted, the page of the segment
is pinned, and what the descriptor names lies within that page if and only if the header and the
data fit behind the offset. -/
theorem dma_within_page_iff (sg : Kobj) (offset type size : ℕ) (s s' : Nic)
    (h : (deviceBuf sg offset type size).result s = some ((), s')) :
    ∃ p t, (kern (segmentGetPage sg (offset / pgsize) pageSharedCow)).result s = some (some p, t) ∧
      (onForest (Forest.onMem (pagetreeIncrefHw p))).result t.machine = some ((), s'.machine) ∧
      (((s'.card.ring type).desc (s.card.ring type).nextq).Within p ↔
        offset % pgsize + netbufSize + dmaLen type size ≤ pgsize) := by
  obtain ⟨p, t, hpage, hadded⟩ := deviceBuf_added h
  refine ⟨p, t, hpage, hadded.pinned, ?_⟩
  rw [hadded.desc, Descriptor.Within]
  simp only [Nat.add_mul, Nat.one_mul, Nat.add_assoc, Nat.add_le_add_iff_left, Nat.le_add_right,
    true_and]

/-- A segment of two pages, and a card that has no buffers yet. -/
def twoPages : Option Nic :=
  ((do let sg ← segmentAlloc 0; segmentSetNbytes sg (2 * 4096) : KM Unit).next
    (bareMachine 8 1 0)).map fun t => { machine := t }

theorem dma_within_page_iff_twoPages : ∃ s s', twoPages = some s ∧
    (deviceBuf 0 4096 devioOut 1000).result s = some ((), s') ∧
      ∃ p, ((s'.card.ring devioOut).desc 0).Within p := by
  obtain ⟨s, hs, hfirst, hends⟩ : ∃ s ∈ twoPages, (s.card.ring devioOut).nextq = 0 ∧
      ((deviceBuf 0 4096 devioOut 1000).result s).isSome := by decide +kernel
  obtain ⟨⟨_, s'⟩, hbuf⟩ := Option.isSome_iff_exists.mp hends
  obtain ⟨p, t, -, -, hiff⟩ := dma_within_page_iff 0 4096 devioOut 1000 s s' hbuf
  rw [hfirst] at hiff
  exact ⟨s, s', hs, hbuf, p, hiff.mpr (by decide)⟩

/-- Where the only buffer begins and ends, and whether its first page is pinned. -/
def Nic.pages (type : ℕ) (s : Nic) : ℕ × ℕ × ℕ :=
  let d := (s.card.ring type).desc 0
  let p := d.addr / pgsize
  (p, (d.addr + d.len - 1) / pgsize, (s.machine.mem.info p).piHwRef)

/-- In both directions a packet can go on behind the page, here from page 1 to page 2. -/
theorem dma_leaves_page :
    (twoPages.bind fun s => ((deviceBuf 0 4000 devioOut 1522).result s).map
        fun r => r.2.pages devioOut) = some (1, 2, 1) ∧
      (twoPages.bind fun s => ((deviceBuf 0 4000 devioIn 1522).result s).map
        fun r => r.2.pages devioIn) = some (1, 2, 1) := by
  decide +kernel

end Corey.Dev
