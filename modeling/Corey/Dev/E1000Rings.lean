import Corey.Dev.E1000
import Corey.Lib.Bytes
import Mathlib.Data.Nat.Bitwise

/-!
The rings of a network card at work (`dev/e1000.c`).

Buffers are added to two rings, the card sets the status of their descriptors, the interrupt
handlers take them from the rings in turn, and a reset gives all of them back. A ring is a bounded
queue, and the page of a buffer is pinned for as long as the buffer is in it. A descriptor for
sending is 16 bytes of memory, the last four of which are to be cleared when a buffer is added.
-/

namespace Corey.Dev

open Function Corey.Mem List

def wtxCmdRs : ℕ := 2 ^ 27
def wtxCmdEop : ℕ := 2 ^ 24
def wtxCmdIfcs : ℕ := 2 ^ 25

def nethdrCountDone : ℕ := 0x8000
def nethdrCountReset : ℕ := 0x4000
def nethdrCountErr : ℕ := 0x2000
def nethdrCountMask : ℕ := 0x0fff

/-- What the driver reads of `wiseman_rxdesc_t`. -/
structure RxDesc where
  wrxLen : ℕ := 0
  done : Bool := false
  wrxErrors : ℕ := 0

/-- The rings, the memory from the first descriptor for sending on, the descriptors for receiving,
`actual_count` of the header at an address, and how often the driver has pinned a page. -/
structure Driver where
  tx : Ring := {}
  rx : Ring := {}
  txd : Bytes := fun _ => 0
  rxd : ℕ → RxDesc := fun _ => {}
  actualCount : ℕ → ℕ := fun _ => 0
  pins : ℕ → ℕ := fun _ => 0

/-- `pagetree_incref_hw` and `pagetree_decref_hw` of the page of a header. -/
def pin (pins : ℕ → ℕ) (b : BufferSlot) : ℕ → ℕ :=
  update pins (b.nb / pgsize) (pins (b.nb / pgsize) + 1)

def unpin (pins : ℕ → ℕ) (b : BufferSlot) : ℕ → ℕ :=
  update pins (b.nb / pgsize) (pins (b.nb / pgsize) - 1)

def cmdlen (size : ℕ) : ℕ := size ||| wtxCmdRs ||| wtxCmdEop ||| wtxCmdIfcs

/-- The stores of `e1000_add_txbuf` to the descriptor of a slot. The size of the part that is
cleared is that of a pointer to it. -/
def putDesc (txd : Bytes) (slot addr size : ℕ) : Bytes :=
  ((txd.put (16 * slot) (.ofNat addr) 8).put (16 * slot + 8) (.ofNat (cmdlen size)) 4).put
    (16 * slot + 12) (fun _ => 0) 8

/-- What adding a buffer fails with, of which the size says whether it is refused. -/
def Ring.error (r : Ring) (refused : Bool) : Option Errno :=
  if r.head = some r.nextq then some .noSpace else if refused then some .inval else none

def Ring.pop (r : Ring) (slots i : ℕ) : Ring :=
  { r with
    slot := update r.slot i none
    head := if (i + 1) % slots = r.nextq then none else some ((i + 1) % slots) }

/-- The buffers in a ring, in the order of their slots. -/
def Ring.buffers (r : Ring) (slots : ℕ) : List BufferSlot := (List.range slots).filterMap r.slot

def Ring.clear (r : Ring) : Ring := { r with head := none, nextq := 0, slot := fun _ => none }

/-- A buffer is given back by a reset. -/
def Driver.release (c : Driver) (b : BufferSlot) : Driver :=
  { c with
    actualCount := update c.actualCount b.nb (c.actualCount b.nb ||| nethdrCountReset)
    pins := unpin c.pins b }

/-- The end of `e1000_reset`. -/
def Driver.reset (c : Driver) : Driver :=
  { (c.tx.buffers e1000TxSlots ++ c.rx.buffers e1000RxSlots).foldl Driver.release c with
    tx := c.tx.clear
    rx := c.rx.clear }

/-- What happens: a buffer is added, the card has sent or received a packet, a handler looks at the
first buffer of its ring, or the card is reset. -/
inductive NicEvent
  | addTx (b : BufferSlot) (size : ℕ)
  | addRx (b : BufferSlot) (size : ℕ)
  | sent (slot : ℕ)
  | received (slot len errors : ℕ)
  | intrTx
  | intrRx
  | reset

/-- One round of `e1000_intr_rx` at the slot `i`. -/
def rxRound (c : Driver) (i : ℕ) (b : BufferSlot) : Driver :=
  let d := c.rxd i
  let err := if d.wrxErrors ≠ 0 then c.actualCount b.nb ||| nethdrCountErr else c.actualCount b.nb
  let counts := update c.actualCount b.nb err
  let counts := update counts b.nb d.wrxLen
  { c with
    actualCount := update counts b.nb (counts b.nb ||| nethdrCountDone)
    pins := unpin c.pins b
    rx := c.rx.pop e1000RxSlots i }

def NicEvent.step : NicEvent → Driver → Option Driver
  | .addTx b size, c =>
    if c.tx.error (1522 < size) ≠ none then some c
    else some { c with
      tx := c.tx.add e1000TxSlots b size
      pins := pin c.pins b
      txd := putDesc c.txd c.tx.nextq (b.nb + netbufSize) size }
  | .addRx b size, c =>
    if c.rx.error (size < 1522) ≠ none then some c
    else some { c with
      rx := c.rx.add e1000RxSlots b rxBufSize
      pins := pin c.pins b
      rxd := update c.rxd c.rx.nextq {} }
  | .sent i, c =>
    if (c.tx.slot i).isNone then none
    else some { c with txd := update c.txd (16 * i + 12) (c.txd (16 * i + 12) ||| 1) }
  | .received i len errors, c =>
    if (c.rx.slot i).isNone then none
    else some { c with rxd := update c.rxd i ⟨len % 2 ^ 16, true, errors % 2 ^ 8⟩ }
  | .intrTx, c =>
    match c.tx.head with
    | none => some c
    | some i =>
      if c.txd (16 * i + 12) &&& 1 = 0 then some c
      else (c.tx.slot i).map fun b => { c with
        actualCount := update c.actualCount b.nb (c.actualCount b.nb ||| nethdrCountDone)
        pins := unpin c.pins b
        tx := c.tx.pop e1000TxSlots i }
  | .intrRx, c =>
    match c.rx.head with
    | none => some c
    | some i => if (c.rxd i).done = false then some c else (c.rx.slot i).map (rxRound c i)
  | .reset, c => some c.reset

/-- The driver from when the card is attached on. -/
def driver : System Driver NicEvent where
  init c := c = {}
  step := NicEvent.step

/-! ### The rings as queues -/

/-- Where the first buffer is, or is to be. -/
def Ring.first (r : Ring) : ℕ := r.head.getD r.nextq

/-- The buffers in a ring are those of a list, from the first slot on. -/
structure Ring.Holds (r : Ring) (q : List BufferSlot) : Prop where
  lt : r.first < 1024
  le : q.length ≤ 1024
  next : r.nextq = (r.first + q.length) % 1024
  empty : r.head = none ↔ q = []
  slot : ∀ i < 1024, r.slot i = q[(i + 1024 - r.first) % 1024]?
  beyond : ∀ i, 1024 ≤ i → r.slot i = none

/-- The slots from `h` round to `n`, all of them if the two are equal. -/
def Cyclic (h n i : ℕ) : Prop := i < 1024 ∧ if h < n then h ≤ i ∧ i < n else h ≤ i ∨ i < n

structure Ring.Fifo (r : Ring) (q : List BufferSlot) : Prop where
  order : r.Holds q
  empty : r.head = none ↔ ∀ i, r.slot i = none
  slots : ∀ h, r.head = some h → ∀ i, (r.slot i).isSome ↔ Cyclic h r.nextq i
  full : ∀ refused, r.error refused = some .noSpace ↔ q.length = 1024

structure Queues where
  tx : List BufferSlot := []
  rx : List BufferSlot := []

/-- The card has set the done bit of the first descriptor of a ring. -/
def Driver.TxDone (c : Driver) : Prop :=
  ∃ i, c.tx.head = some i ∧ c.txd (16 * i + 12) &&& 1 ≠ 0

def Driver.RxDone (c : Driver) : Prop := ∃ i, c.rx.head = some i ∧ (c.rxd i).done = true

/-- A buffer is added at the end if there is room for it. A handler takes the first buffer out and
unpins it if the card is done with it, and otherwise does nothing. -/
def Queues.Next (c c' : Driver) (q q' : Queues) : NicEvent → Prop
  | .addTx b size =>
    q' = if q.tx.length = 1024 ∨ 1522 < size then q else { q with tx := q.tx ++ [b] }
  | .addRx b size =>
    q' = if q.rx.length = 1024 ∨ size < 1522 then q else { q with rx := q.rx ++ [b] }
  | .sent _ | .received .. => q' = q
  | .intrTx =>
    (c.TxDone → ∃ b, q = { q' with tx := b :: q'.tx } ∧ c'.pins = unpin c.pins b) ∧
      (¬ c.TxDone → q' = q ∧ c' = c)
  | .intrRx =>
    (c.RxDone → ∃ b, q = { q' with rx := b :: q'.rx } ∧ c'.pins = unpin c.pins b) ∧
      (¬ c.RxDone → q' = q ∧ c' = c)
  | .reset => q' = {}

/-- How many buffers of a list are in a page. -/
def inPage (p : ℕ) (l : List BufferSlot) : ℕ := l.countP fun b => b.nb / pgsize = p

/-- The driver has the buffers of two queues, each of them pinned once. -/
structure Driver.Holds (c : Driver) (q : Queues) : Prop where
  tx : c.tx.Holds q.tx
  rx : c.rx.Holds q.rx
  pins : ∀ p, c.pins p = inPage p q.tx + inPage p q.rx

section
variable {r : Ring} {q : List BufferSlot} {b : BufferSlot} {i : ℕ}

lemma Ring.Holds.full_iff (h : r.Holds q) : r.head = some r.nextq ↔ q.length = 1024 := by
  have hlt := h.lt
  have hle := h.le
  have hnext := h.next
  cases hhead : r.head with
  | none =>
    have hnil := h.empty.mp hhead
    simp [hnil]
  | some k =>
    have hne : q.length ≠ 0 := fun h0 => by
      rw [h.empty.mpr (length_eq_zero_iff.mp h0)] at hhead
      cases hhead
    rw [Ring.first, hhead, Option.getD_some] at hlt hnext
    rw [Option.some.injEq]
    omega

lemma Ring.Holds.error_noSpace (h : r.Holds q) (refused : Bool) :
    r.error refused = some .noSpace ↔ q.length = 1024 := by
  rw [← h.full_iff, Ring.error]
  split_ifs with hfull href
  · exact iff_of_true rfl hfull
  · exact iff_of_false nofun hfull
  · exact iff_of_false nofun hfull

lemma Ring.error_eq_none {refused : Bool} :
    r.error refused = none ↔ r.head ≠ some r.nextq ∧ refused = false := by
  rw [Ring.error]
  split_ifs with hfull href
  · exact iff_of_false nofun fun h => h.1 hfull
  · exact iff_of_false nofun fun h => by simp [h.2] at href
  · exact iff_of_true rfl ⟨hfull, by simpa using href⟩

lemma Ring.Holds.error_ne (h : r.Holds q) {refused : Prop} [Decidable refused] :
    r.error refused ≠ none ↔ q.length = 1024 ∨ refused := by
  rw [Ne, Ring.error_eq_none, ← h.full_iff, decide_eq_false_iff_not, not_and_or, not_not, not_not]

lemma Ring.Holds.add {len : ℕ} (h : r.Holds q) (hroom : q.length ≠ 1024) :
    (r.add 1024 b len).Holds (q ++ [b]) := by
  have hlt := h.lt
  have hle := h.le
  have hnext := h.next
  have hfirst : (r.add 1024 b len).first = r.first := rfl
  refine ⟨hlt, ?_, ?_, ?_, fun i hi => ?_, fun i hi => ?_⟩
  · rw [length_append, length_singleton]
    omega
  · rw [hfirst, length_append, length_singleton]
    show (r.nextq + 1) % 1024 = _
    omega
  · exact iff_of_false nofun (by simp)
  · rw [hfirst]
    by_cases hin : i = r.nextq
    · have hj : (i + 1024 - r.first) % 1024 = q.length := by omega
      rw [hj, getElem?_concat_length, hin]
      exact update_self r.nextq _ r.slot
    · have hj : (i + 1024 - r.first) % 1024 ≠ q.length := by omega
      rw [show (r.add 1024 b len).slot i = r.slot i from update_of_ne hin _ _, h.slot i hi]
      rcases Nat.lt_or_gt_of_ne hj with hlow | hhigh
      · rw [getElem?_append_left hlow]
      · rw [getElem?_eq_none hhigh.le, getElem?_eq_none]
        rw [length_append, length_singleton]
        exact hhigh
  · rw [show (r.add 1024 b len).slot i = r.slot i from update_of_ne (by omega) _ _]
    exact h.beyond i hi

lemma Ring.Holds.pop (h : r.Holds q) (hi : r.head = some i) (hb : r.slot i = some b) :
    ∃ q', q = b :: q' ∧ (r.pop 1024 i).Holds q' := by
  have hlt := h.lt
  have hnext := h.next
  have hfirst : r.first = i := by rw [Ring.first, hi, Option.getD_some]
  rw [hfirst] at hlt hnext
  have hslot := h.slot i hlt
  rw [hfirst, Nat.add_sub_cancel_left, Nat.mod_self, hb] at hslot
  cases q with
  | nil => cases hslot
  | cons b' q =>
    cases hslot
    have hle := h.le
    rw [length_cons] at hle hnext
    have hfirst' : (r.pop 1024 i).first = (i + 1) % 1024 := by
      simp only [Ring.first, Ring.pop]
      split_ifs with hlast
      · exact hlast.symm
      · rfl
    refine ⟨q, rfl, ?_, by omega, ?_, ?_, fun k hk => ?_, fun k hk => ?_⟩
    · rw [hfirst']
      exact Nat.mod_lt _ (by decide)
    · rw [hfirst']
      show r.nextq = _
      omega
    · rw [← length_eq_zero_iff]
      simp only [Ring.pop]
      split_ifs with hlast
      · exact iff_of_true rfl (by omega)
      · exact iff_of_false nofun (by omega)
    · rw [hfirst']
      by_cases hki : k = i
      · rw [hki, getElem?_eq_none (by omega)]
        exact update_self i none r.slot
      · have hj : (k + 1024 - i) % 1024 = (k + 1024 - (i + 1) % 1024) % 1024 + 1 := by omega
        rw [show (r.pop 1024 i).slot k = r.slot k from update_of_ne hki _ _, h.slot k hk, hfirst,
          hj, getElem?_cons_succ]
    · rw [show (r.pop 1024 i).slot k = r.slot k from update_of_ne (by omega) _ _]
      exact h.beyond k hk

lemma Ring.clear_holds (r : Ring) : r.clear.Holds [] :=
  ⟨Nat.two_pow_pos 10, Nat.zero_le _, rfl, iff_of_true rfl rfl, fun _ _ => rfl, fun _ _ => rfl⟩

lemma Ring.Holds.fifo (h : r.Holds q) : r.Fifo q := by
  have hlt := h.lt
  have hle := h.le
  have hnext := h.next
  refine ⟨h, ⟨fun hnone i => ?_, fun hall => ?_⟩, fun k hk i => ?_, h.error_noSpace⟩
  · rcases Nat.lt_or_ge i 1024 with hi | hi
    · rw [h.slot i hi, h.empty.mp hnone, getElem?_nil]
    · exact h.beyond i hi
  · have h0 := (h.slot r.first hlt).symm.trans (hall _)
    rw [Nat.add_sub_cancel_left, Nat.mod_self, getElem?_eq_none_iff] at h0
    exact h.empty.mpr (length_eq_zero_iff.mp (Nat.le_zero.mp h0))
  · have hne : q.length ≠ 0 := fun h0 => by
      rw [h.empty.mpr (length_eq_zero_iff.mp h0)] at hk
      cases hk
    have hfirst : r.first = k := by rw [Ring.first, hk, Option.getD_some]
    rw [hfirst] at hlt hnext
    rcases Nat.lt_or_ge i 1024 with hi | hi
    · rw [h.slot i hi, hfirst, isSome_getElem?, Cyclic]
      split_ifs
      · omega
      · omega
    · rw [h.beyond i hi]
      exact iff_of_false nofun fun hin => absurd hin.1 (Nat.not_lt.mpr hi)

lemma filterMap_getElem? {α : Type} (l : List α) (n : ℕ) :
    (range n).filterMap (fun i => l[i]?) = l.take n := by
  induction n with
  | zero => rfl
  | succ n ih =>
    rw [range_succ, filterMap_append, ih, take_add_one]
    cases h : l[n]? <;> simp [h]

lemma Ring.Holds.buffers (h : r.Holds q) : (r.buffers 1024).Perm q := by
  have hlt := h.lt
  have hle := h.le
  have hsplit : range 1024 = range r.first ++ (range (1024 - r.first)).map (r.first + ·) := by
    rw [← range_add, Nat.add_sub_cancel' hlt.le]
  have hlow : (range r.first).filterMap r.slot = q.drop (1024 - r.first) := by
    rw [← take_of_length_le (i := r.first) (l := q.drop (1024 - r.first)), ← filterMap_getElem?]
    · refine filterMap_congr fun i hi => ?_
      rw [mem_range] at hi
      have hj : (i + 1024 - r.first) % 1024 = 1024 - r.first + i := by omega
      rw [h.slot i (by omega), getElem?_drop, hj]
    · rw [length_drop]
      omega
  have hhigh : ((range (1024 - r.first)).map (r.first + ·)).filterMap r.slot =
      q.take (1024 - r.first) := by
    rw [← filterMap_getElem?, filterMap_map]
    refine filterMap_congr fun i hi => ?_
    rw [mem_range] at hi
    have hj : (r.first + i + 1024 - r.first) % 1024 = i := by omega
    show r.slot (r.first + i) = _
    rw [h.slot _ (by omega), hj]
  rw [Ring.buffers, hsplit, filterMap_append, hlow, hhigh]
  exact perm_append_comm.trans (.of_eq (take_append_drop _ q))

end

section
variable {c c' : Driver} {q : Queues} {e : NicEvent} {p : ℕ} {b : BufferSlot}

lemma inPage_cons (l : List BufferSlot) : inPage p (b :: l) = inPage p [b] + inPage p l := by
  rw [← singleton_append, inPage, countP_append]
  rfl

lemma inPage_concat (l : List BufferSlot) : inPage p (l ++ [b]) = inPage p l + inPage p [b] :=
  countP_append

lemma pin_apply (pins : ℕ → ℕ) : pin pins b p = pins p + inPage p [b] := by
  by_cases h : b.nb / pgsize = p
  · simp [pin, inPage, ← h]
  · simp [pin, inPage, h, update_of_ne (Ne.symm h)]

lemma unpin_apply (pins : ℕ → ℕ) : unpin pins b p = pins p - inPage p [b] := by
  by_cases h : b.nb / pgsize = p
  · simp [unpin, inPage, ← h]
  · simp [unpin, inPage, h, update_of_ne (Ne.symm h)]

lemma release_pins (l : List BufferSlot) (c : Driver) :
    (l.foldl Driver.release c).pins p = c.pins p - inPage p l := by
  induction l generalizing c with
  | nil => rfl
  | cons b l ih =>
    rw [foldl_cons, ih, inPage_cons, Nat.sub_add_eq]
    exact congrArg (· - _) (unpin_apply c.pins)

lemma Driver.Holds.step (h : c.Holds q) (hstep : e.step c = some c') :
    ∃ q', c'.Holds q' ∧ Queues.Next c c' q q' e := by
  have hpins := h.pins
  cases e with
  | addTx b size =>
    simp only [NicEvent.step] at hstep
    split_ifs at hstep with hno <;> cases hstep <;> rw [h.tx.error_ne] at hno
    · exact ⟨q, h, (if_pos hno).symm⟩
    · refine ⟨{ q with tx := q.tx ++ [b] },
        ⟨h.tx.add (not_or.mp hno).1, h.rx, fun p => (pin_apply c.pins).trans ?_⟩,
        (if_neg hno).symm⟩
      rw [hpins, inPage_concat]
      dsimp only
      omega
  | addRx b size =>
    simp only [NicEvent.step] at hstep
    split_ifs at hstep with hno <;> cases hstep <;> rw [h.rx.error_ne] at hno
    · exact ⟨q, h, (if_pos hno).symm⟩
    · refine ⟨{ q with rx := q.rx ++ [b] },
        ⟨h.tx, h.rx.add (not_or.mp hno).1, fun p => (pin_apply c.pins).trans ?_⟩,
        (if_neg hno).symm⟩
      rw [hpins, inPage_concat]
      dsimp only
      omega
  | sent | received =>
    simp only [NicEvent.step] at hstep
    split_ifs at hstep
    cases hstep
    exact ⟨q, ⟨h.tx, h.rx, hpins⟩, rfl⟩
  | intrTx =>
    simp only [NicEvent.step] at hstep
    split at hstep
    · rename_i hnone
      cases hstep
      refine ⟨q, h, fun hdone => ?_, fun _ => ⟨rfl, rfl⟩⟩
      obtain ⟨i, hi, -⟩ := hdone
      cases hnone.symm.trans hi
    · rename_i i hi
      split_ifs at hstep with hbit
      · cases hstep
        refine ⟨q, h, fun hdone => ?_, fun _ => ⟨rfl, rfl⟩⟩
        obtain ⟨j, hj, hset⟩ := hdone
        cases hi.symm.trans hj
        exact absurd hbit hset
      · obtain ⟨b, hb, rfl⟩ := Option.map_eq_some_iff.mp hstep
        obtain ⟨l, hl, hpop⟩ := h.tx.pop hi hb
        refine ⟨{ q with tx := l }, ⟨hpop, h.rx, fun p => (unpin_apply c.pins).trans ?_⟩,
          fun _ => ⟨b, by rw [← hl], rfl⟩, fun hno => absurd ⟨i, hi, hbit⟩ hno⟩
        rw [hpins, hl, inPage_cons]
        dsimp only
        omega
  | intrRx =>
    simp only [NicEvent.step] at hstep
    split at hstep
    · rename_i hnone
      cases hstep
      refine ⟨q, h, fun hdone => ?_, fun _ => ⟨rfl, rfl⟩⟩
      obtain ⟨i, hi, -⟩ := hdone
      cases hnone.symm.trans hi
    · rename_i i hi
      split_ifs at hstep with hbit
      · cases hstep
        refine ⟨q, h, fun hdone => ?_, fun _ => ⟨rfl, rfl⟩⟩
        obtain ⟨j, hj, hset⟩ := hdone
        cases hi.symm.trans hj
        exact absurd (hbit.symm.trans hset) Bool.false_ne_true
      · obtain ⟨b, hb, rfl⟩ := Option.map_eq_some_iff.mp hstep
        obtain ⟨l, hl, hpop⟩ := h.rx.pop hi hb
        refine ⟨{ q with rx := l }, ⟨h.tx, hpop, fun p => (unpin_apply c.pins).trans ?_⟩,
          fun _ => ⟨b, by rw [← hl], rfl⟩, fun hno => absurd ⟨i, hi, eq_true_of_ne_false hbit⟩ hno⟩
        rw [hpins, hl, inPage_cons]
        dsimp only
        omega
  | reset =>
    cases hstep
    refine ⟨{}, ⟨Ring.clear_holds _, Ring.clear_holds _, fun p => ?_⟩, rfl⟩
    rw [Driver.reset]
    dsimp only
    rw [release_pins, hpins]
    refine Nat.sub_eq_zero_of_le (Nat.le_of_eq ?_)
    rw [inPage, inPage, inPage, countP_append]
    exact (congrArg₂ _ (h.tx.buffers.countP_eq _) (h.rx.buffers.countP_eq _)).symm

lemma Ring.Holds.slot_isSome {r : Ring} {l : List BufferSlot} {i : ℕ} (h : r.Holds l)
    (hi : r.head = some i) : (r.slot i).isSome := by
  have hne : l ≠ [] := fun hnil => by cases (h.empty.mpr hnil).symm.trans hi
  have hfirst : r.first = i := by rw [Ring.first, hi, Option.getD_some]
  rw [h.slot i (hfirst ▸ h.lt), hfirst, Nat.add_sub_cancel_left, Nat.mod_self, isSome_getElem?]
  exact length_pos_iff.mpr hne

lemma Driver.Holds.intrTx_isSome (h : c.Holds q) : (driver.step .intrTx c).isSome := by
  show (NicEvent.step .intrTx c).isSome
  simp only [NicEvent.step]
  split
  · rfl
  · split_ifs
    · rfl
    · rw [Option.isSome_map]
      exact h.tx.slot_isSome ‹_›

lemma Driver.Holds.intrRx_isSome (h : c.Holds q) : (driver.step .intrRx c).isSome := by
  show (NicEvent.step .intrRx c).isSome
  simp only [NicEvent.step]
  split
  · rfl
  · split_ifs
    · rfl
    · rw [Option.isSome_map]
      exact h.rx.slot_isSome ‹_›

/-- **The rings are bounded queues.** In every state of every run each ring holds a queue in the
slots from its head round to the next slot, an add fails for want of space exactly when there are
1024 buffers in it, every step adds at the end and takes from the front, a handler takes the first
buffer out and unpins it exactly when the card is done with it, and each page is pinned once for
each buffer in it. -/
theorem driver_queues (h : driver.Reachable c) :
    ∃ q : Queues, c.tx.Fifo q.tx ∧ c.rx.Fifo q.rx ∧ c.Holds q ∧
      (driver.step .intrTx c).isSome ∧ (driver.step .intrRx c).isSome ∧
      ∀ e c', driver.step e c = some c' → ∃ q', c'.Holds q' ∧ Queues.Next c c' q q' e := by
  have hinv : ∃ q, c.Holds q := by
    refine h.invariant (I := fun c => ∃ q, c.Holds q) (fun c hc => ?_) fun c e c' hc _ hs => ?_
    · cases hc
      have hempty : ({} : Ring).Holds [] := Ring.clear_holds {}
      exact ⟨{}, hempty, hempty, fun _ => rfl⟩
    · obtain ⟨q, hq⟩ := hc
      obtain ⟨q', hq', -⟩ := hq.step hs
      exact ⟨q', hq'⟩
  obtain ⟨q, hq⟩ := hinv
  exact ⟨q, hq.tx.fifo, hq.rx.fifo, hq, hq.intrTx_isSome, hq.intrRx_isSome,
    fun _ _ hs => hq.step hs⟩

/-- Two packets are to be sent, of which the card has sent the first, and one is to be received. -/
theorem driver_queues_threeBuffers : ∃ c, c.TxDone ∧ (c.tx.slot 1).isSome ∧ ¬ c.RxDone ∧
    c.rx.head = some 0 ∧
    ∃ q : Queues, c.tx.Fifo q.tx ∧ c.rx.Fifo q.rx ∧ c.Holds q ∧
      (driver.step .intrTx c).isSome ∧ (driver.step .intrRx c).isSome ∧
      ∀ e c', driver.step e c = some c' → ∃ q', c'.Holds q' ∧ Queues.Next c c' q q' e := by
  refine ⟨_, ⟨0, rfl, by decide⟩, rfl, ?_, rfl, driver_queues <|
    .next (a := .sent 0) (.next (a := .addRx ⟨12288, 0, 0⟩ 2048)
      (.next (a := .addTx ⟨8192, 0, 0⟩ 80) (.next (a := .addTx ⟨4096, 0, 0⟩ 60)
        (.start rfl) trivial rfl) trivial rfl) trivial rfl) trivial rfl⟩
  rintro ⟨i, hi, hdone⟩
  cases hi
  cases hdone

end

/-! ### Descriptors and headers -/

/-- The four bytes behind the descriptor are zero, and a packet that is handed over has no errors
and a length of 12 bits. -/
def Clean (c : Driver) : NicEvent → Prop
  | .addTx _ size => c.tx.error (1522 < size) = none →
      ∀ j < 4, c.txd (16 * (c.tx.nextq + 1) + j) = 0
  | .intrRx => ∀ i, c.rx.head = some i → (c.rxd i).done = true →
      (c.rxd i).wrxErrors = 0 ∧ (c.rxd i).wrxLen ≤ nethdrCountMask
  | _ => True

/-- The stores of a new descriptor stay within it, and the header of a packet that is handed over
has the length and the error bit of its descriptor. -/
def Faithful (c c' : Driver) : NicEvent → Prop
  | .addTx _ _ => ∀ a, a < 16 * c.tx.nextq ∨ 16 * (c.tx.nextq + 1) ≤ a → c'.txd a = c.txd a
  | .intrRx => ∀ i b, c.rx.head = some i → (c.rxd i).done = true → c.rx.slot i = some b →
      c'.actualCount b.nb &&& nethdrCountMask = (c.rxd i).wrxLen ∧
        (c'.actualCount b.nb &&& nethdrCountErr ≠ 0 ↔ (c.rxd i).wrxErrors ≠ 0)
  | _ => True

/-- A pending descriptor has the address and the length of its buffer. -/
def Intact (c : Driver) : Prop :=
  ∀ i b, c.tx.slot i = some b → c.txd.word (16 * i) = (b.nb + netbufSize) % 2 ^ 64 ∧
    c.txd.little 4 (16 * i + 8) = cmdlen (c.tx.desc i).len

variable {c c' : Driver} {e : NicEvent} {slot addr size a : ℕ} {b : Bytes}

lemma putDesc_behind {j : ℕ} (h : j < 4) : putDesc b slot addr size (16 * (slot + 1) + j) = 0 :=
  Bytes.put_within (by omega) (by omega)

lemma putDesc_word : (putDesc b slot addr size).word (16 * slot) = addr % 2 ^ 64 := by
  have h : (putDesc b slot addr size).word (16 * slot) = (Bytes.ofNat addr).word 0 :=
    Bytes.word_congr fun j hj => by
      rw [putDesc, Bytes.put_away (by omega), Bytes.put_away (by omega),
        Bytes.put_within (by omega) (by omega), Nat.zero_add, Nat.add_sub_cancel_left]
  rw [h, Bytes.word, Bytes.little_ofNat, pow_zero, Nat.div_one]
  rfl

lemma putDesc_cmdlen (h : size ≤ 1522) :
    (putDesc b slot addr size).little 4 (16 * slot + 8) = cmdlen size := by
  have hput : (putDesc b slot addr size).little 4 (16 * slot + 8) =
      (Bytes.ofNat (cmdlen size)).little 4 0 :=
    Bytes.little_congr fun j hj => by
      rw [putDesc, Bytes.put_away (by omega), Bytes.put_within (by omega) (by omega), Nat.zero_add,
        Nat.add_sub_cancel_left]
  have hlt : cmdlen size < 2 ^ 32 := by
    rw [cmdlen]
    exact Nat.or_lt_two_pow (Nat.or_lt_two_pow (Nat.or_lt_two_pow (by omega) (by decide))
      (by decide)) (by decide)
  rw [hput, Bytes.little_ofNat, pow_zero, Nat.div_one]
  exact Nat.mod_eq_of_lt hlt

lemma done_bits (n : ℕ) : (n ||| nethdrCountDone) &&& nethdrCountMask = n % 2 ^ 12 ∧
    ((n ||| nethdrCountDone) &&& nethdrCountErr ≠ 0 ↔ n.testBit 13 = true) := by
  constructor
  · rw [show nethdrCountMask = 2 ^ 12 - 1 from rfl, Nat.and_two_pow_sub_one_eq_mod,
      Nat.or_mod_two_pow]
    exact Nat.or_zero _
  · rw [show nethdrCountErr = 2 ^ 13 from rfl, Nat.and_two_pow, Nat.testBit_or,
      show nethdrCountDone.testBit 13 = false by decide, Bool.or_false]
    cases n.testBit 13 <;> decide

lemma faithful_iff (h : e.step c = some c') : Faithful c c' e ↔ Clean c e := by
  cases e with
  | addTx b size =>
    simp only [NicEvent.step] at h
    split_ifs at h with hno
    · cases h
      exact ⟨fun _ hyes => absurd hyes hno, fun _ _ _ => rfl⟩
    · cases h
      refine ⟨fun h _ j hj => ?_, fun h a ha => ?_⟩
      · rw [← h _ (by omega)]
        exact putDesc_behind hj
      · by_cases hnear : a < 16 * c.tx.nextq ∨ 16 * c.tx.nextq + 20 ≤ a
        · show putDesc .. = _
          rw [putDesc, Bytes.put_away (by omega), Bytes.put_away (by omega),
            Bytes.put_away (by omega)]
        · obtain ⟨j, rfl⟩ := Nat.exists_eq_add_of_le (by omega : 16 * (c.tx.nextq + 1) ≤ a)
          rw [h (not_not.mp hno) j (by omega)]
          exact putDesc_behind (by omega)
  | intrRx =>
    simp only [NicEvent.step] at h
    split at h
    · cases h
      simp [Faithful, Clean, *]
    · rename_i i hi
      split_ifs at h with hdone
      · have hnot : ∀ j, c.rx.head = some j → ¬ (c.rxd j).done = true := fun j hj => by
          cases hi.symm.trans hj
          simp [hdone]
        exact iff_of_true (fun j _ hj hd _ => absurd hd (hnot j hj))
          fun j hj hd => absurd hd (hnot j hj)
      · obtain ⟨b, hb, rfl⟩ := Option.map_eq_some_iff.mp h
        obtain ⟨hcount, herr⟩ := done_bits (c.rxd i).wrxLen
        have hnew : (rxRound c i b).actualCount b.nb = (c.rxd i).wrxLen ||| nethdrCountDone := by
          simp [rxRound]
        simp only [Bool.not_eq_false] at hdone
        refine ⟨fun h j hj _ => ?_, fun h j b' hj hd hb' => ?_⟩
        · cases hi.symm.trans hj
          obtain ⟨h1, h2⟩ := h i b hi hdone hb
          rw [hnew, hcount] at h1
          rw [hnew, herr, Nat.testBit_lt_two_pow (by omega)] at h2
          exact ⟨by simpa using h2, by rw [nethdrCountMask]; omega⟩
        · cases hi.symm.trans hj
          cases hb.symm.trans hb'
          obtain ⟨h1, h2⟩ := h i hi hdone
          rw [nethdrCountMask] at h2
          rw [hnew, hcount, herr, Nat.testBit_lt_two_pow (by omega), h1]
          exact ⟨Nat.mod_eq_of_lt (by omega), by simp⟩
  | _ => exact Iff.rfl

/-! ### Pending descriptors -/

lemma Intact.of {i : ℕ} {x : BufferSlot} (h : Intact c) (hx : c.tx.slot i = some x)
    (hdesc : c'.tx.desc i = c.tx.desc i)
    (hbytes : ∀ j < 12, c'.txd (16 * i + j) = c.txd (16 * i + j)) :
    c'.txd.word (16 * i) = (x.nb + netbufSize) % 2 ^ 64 ∧
      c'.txd.little 4 (16 * i + 8) = cmdlen (c'.tx.desc i).len := by
  rw [← (h i x hx).1, hdesc, ← (h i x hx).2]
  refine ⟨Bytes.word_congr fun j _ => hbytes j (by omega), Bytes.little_congr fun j _ => ?_⟩
  rw [Nat.add_assoc]
  exact hbytes (8 + j) (by omega)

lemma step_intact (h : Intact c) (hclean : Clean c e) (hstep : e.step c = some c') :
    Intact c' := by
  have hkeep := (faithful_iff hstep).mpr hclean
  intro i x hx
  cases e with
  | addTx b size =>
    simp only [NicEvent.step] at hstep
    split_ifs at hstep with hno <;> cases hstep
    · exact h i x hx
    · by_cases hi : i = c.tx.nextq
      · subst hi
        simp only [Ring.add, update_self, Option.some.injEq] at hx ⊢
        subst hx
        have hsize := (Ring.error_eq_none.mp (not_not.mp hno)).2
        exact ⟨putDesc_word, putDesc_cmdlen (Nat.not_lt.mp (of_decide_eq_false hsize))⟩
      · simp only [Ring.add, update_of_ne hi] at hx
        exact h.of hx (update_of_ne hi _ _) fun j hj => hkeep _ (by omega)
  | sent k =>
    simp only [NicEvent.step] at hstep
    split_ifs at hstep
    cases hstep
    exact h.of hx rfl fun j hj => update_of_ne (by omega) _ _
  | intrTx =>
    simp only [NicEvent.step] at hstep
    split at hstep
    · cases hstep
      exact h i x hx
    · split_ifs at hstep
      · cases hstep
        exact h i x hx
      · obtain ⟨b, -, rfl⟩ := Option.map_eq_some_iff.mp hstep
        simp only [Ring.pop, update_apply] at hx
        split_ifs at hx
        exact h i x hx
  | addRx | received =>
    simp only [NicEvent.step] at hstep
    split_ifs at hstep <;> cases hstep <;> exact h i x hx
  | intrRx =>
    simp only [NicEvent.step] at hstep
    split at hstep
    · cases hstep
      exact h i x hx
    · split_ifs at hstep
      · cases hstep
        exact h i x hx
      · obtain ⟨b, -, rfl⟩ := Option.map_eq_some_iff.mp hstep
        exact h i x hx
  | reset =>
    cases hstep
    cases hx

/-- **Descriptors and headers say what they should as long as nothing is in the way.** In every run
in which each new descriptor is followed by four bytes that are zero, and each packet has come
without errors and is short, the pending descriptors have the addresses and the lengths of their
buffers; and a step of such a run is faithful exactly when it meets this condition too. -/
theorem driver_faithful (h : driver.Reach Clean c) :
    Intact c ∧ ∀ e c', driver.step e c = some c' → (Faithful c c' e ↔ Clean c e) := by
  refine ⟨h.invariant (fun c hc => ?_) fun c e c' hc hok hs => step_intact hc hok hs,
    fun e c' hs => faithful_iff hs⟩
  cases hc
  nofun

/-- Two packets are to be sent, and one has been received and handed over. -/
theorem driver_faithful_threeBuffers : ∃ c, (c.tx.slot 0).isSome ∧ (c.tx.slot 1).isSome ∧
    c.actualCount 8192 = nethdrCountDone + 60 ∧ Intact c ∧
    ∀ e c', driver.step e c = some c' → (Faithful c c' e ↔ Clean c e) := by
  refine ⟨_, rfl, rfl, ?_, driver_faithful <|
    .next (a := .intrRx) (.next (a := .received 0 60 0) (.next (a := .addTx ⟨12288, 0, 0⟩ 80)
      (.next (a := .addRx ⟨8192, 0, 0⟩ 2048) (.next (a := .addTx ⟨4096, 0, 0⟩ 60)
        (.start rfl) (fun _ _ _ => rfl) rfl) trivial rfl) (fun _ => ?_) rfl) trivial rfl) ?_ rfl⟩
  · decide
  · decide
  · intro i hi _
    cases hi
    exact ⟨rfl, by decide⟩

/-- All slots are taken, the first of them once more. -/
def wrapped : List NicEvent :=
  List.replicate 1024 (.addTx ⟨4096, 0, 0⟩ 60) ++ [.sent 0, .intrTx, .addTx ⟨4096, 0, 0⟩ 60]

/-- A packet comes with errors. -/
def damaged : List NicEvent := [.addRx ⟨4096, 0, 0⟩ 2048, .received 0 60 1]

/-- A new descriptor clears the address in the pending one behind it, and the errors of a packet
are lost. -/
theorem driver_unfaithful : (∃ c, driver.Reachable c ∧ ¬ Intact c) ∧
    ∃ c c', driver.Reachable c ∧ driver.step .intrRx c = some c' ∧ ¬ Faithful c c' .intrRx := by
  constructor
  · obtain ⟨c, hc, hslot, hword⟩ : ∃ c ∈ driver.run (fun _ _ => true) wrapped {},
        c.tx.slot 1 = some ⟨4096, 0, 0⟩ ∧ c.txd.word 16 = 0 := by decide +kernel
    refine ⟨c, (System.Reach.start rfl).run (fun _ _ _ => trivial) hc, fun h => ?_⟩
    exact absurd (hword.symm.trans (h 1 _ hslot).1) (by decide)
  · have hrun : ∃ c, driver.run (fun _ _ => true) damaged {} = some c := ⟨_, rfl⟩
    obtain ⟨c, hc⟩ := hrun
    refine ⟨c, rxRound c 0 ⟨4096, 0, 0⟩, (System.Reach.start rfl).run (fun _ _ _ => trivial) hc, ?_⟩
    cases hc
    refine ⟨rfl, fun h => ?_⟩
    exact absurd ((h 0 _ rfl rfl rfl).2.mpr (by decide)) (by decide)

end Corey.Dev
