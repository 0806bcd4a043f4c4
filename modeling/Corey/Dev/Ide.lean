import Corey.Dev.DiskPieces

/-!
The channel of an IDE drive (`dev/ide.c`) below `disk_feed`.

A channel works on one request. That it is busy is only found out by `ide_issue`, when `disk_feed`
has already entered the pieces of the next request and its header in place of those of the one that
is outstanding. The drive is told the number of sectors in one byte and the first sector in 28 bits.
-/

namespace Corey.Dev

open Function Corey.Comp Corey.Mem Corey.Kern List

inductive DiskOp | none | read | write | flush
  deriving DecidableEq

/-- `struct ide_prd` -/
structure IdePrd where
  addr : ℕ := 0
  count : ℕ := 0

def nprdslots : ℕ := 17
def idePrdEot : ℕ := 2 ^ 31

def ideRegSectorCount : ℕ := 2
def ideRegLbaLow : ℕ := 3
def ideRegLbaMid : ℕ := 4
def ideRegLbaHi : ℕ := 5
def ideRegDevice : ℕ := 6
def ideRegCmd : ℕ := 7

def ideDevLba : ℕ := 0x40

/-- The operation with its entries and its offset (`current_op`), the table of the regions, the
registers of the drive as they were last written, and the disk. What the interrupt looks at is left
out. -/
structure IdeChannel where
  op : DiskOp := .none
  iovCnt : ℕ := 0
  byteOffset : ℕ := 0
  bmPrd : ℕ → IdePrd := fun _ => {}
  cmd : ℕ → ℕ := fun _ => 0
  diskno : ℕ := 0
  dk : Disk

abbrev IdeM := Comp Errno IdeChannel

def outb (reg v : ℕ) : IdeM Unit :=
  change fun c => { c with cmd := update c.cmd reg (v % 256) }

def ideSelectSectors (startSector numSectors : ℕ) : IdeM Unit := do
  require (numSectors ≤ 256)
  let c ← state
  outb ideRegSectorCount numSectors
  outb ideRegLbaLow startSector
  outb ideRegLbaMid (startSector / 2 ^ 8)
  outb ideRegLbaHi (startSector / 2 ^ 16)
  outb ideRegDevice (ideDevLba ||| c.diskno * 16 ||| startSector / 2 ^ 24 % 16)

/-- The loop of `ide_dma_init` with the number of slots that are left. The address of a page is its
physical one. -/
def ideDmaInit : ℕ → ℕ → ℕ → ℕ → ℕ → IdeM ℕ
  | 0, _, iovSlot, _, nbytes => do
    let c ← state
    require (c.iovCnt ≤ iovSlot)
    pure nbytes
  | k + 1, prdSlot, iovSlot, iovSlotStart, nbytes => do
    let c ← state
    if c.iovCnt ≤ iovSlot then pure nbytes
    else do
      let iov := c.dk.dkIov iovSlot
      let base ← need .panic iov.iovBase
      let buf := base + iovSlotStart
      let pageBytes := min (pgsize - buf % pgsize) (iov.iovLen - iovSlotStart)
      require (buf + pageBytes % 65536 < Kern.word32)
      let last := iovSlotStart + pageBytes = iov.iovLen
      let slot := if last then iovSlot + 1 else iovSlot
      change fun c => { c with bmPrd := update c.bmPrd prdSlot ⟨buf,
        if slot = c.iovCnt then pageBytes % 65536 ||| idePrdEot else pageBytes % 65536⟩ }
      ideDmaInit k (prdSlot + 1) slot (if last then 0 else iovSlotStart + pageBytes)
        (nbytes + pageBytes)

/-- `ready` says how the wait for the drive ends. -/
def ideSend (ready : Bool) : IdeM Unit := do
  let c ← state
  outb ideRegDevice (c.diskno * 16)
  if ready = false then raise .busy
  else match c.op with
    | .none => halt .panic
    | .flush => outb ideRegCmd 0xe7
    | op => do
      let numBytes ← ideDmaInit nprdslots 0 0 0 0
      require (numBytes ≤ 65536)
      require (c.byteOffset % 512 = 0)
      require (numBytes % 512 = 0)
      ideSelectSectors (c.byteOffset / 512 % Kern.word32) (numBytes / 512)
      outb ideRegCmd (if op = .read then 0xc8 else 0xca)

def ideIssue (op : DiskOp) (iovCnt byteOffset : ℕ) (ready : Bool) : IdeM Unit := do
  let c ← state
  if c.op ≠ .none then raise .busy
  else do
    change fun c => { c with op := op, iovCnt := iovCnt, byteOffset := byteOffset }
    onErr (ideSend ready) (change fun c => { c with op := .none })

/-- `disk_feed`, with the driver it calls at its end. -/
def ideFeed (r : Request) (ready : Bool) : IdeM Unit := do
  zoom IdeChannel.dk (fun d c => { c with dk := d }) (diskFeed { r with answer := none })
  ideIssue (if r.type = devioIn then .read else .write) r.iovCnt r.address ready

variable {c c' : IdeChannel} {r : Request} {ready : Bool} {prd iov start nb k b n : ℕ}

/-! ### A channel that is busy -/

/-- The header, the entries, and the pins of the pages of the request that is outstanding. -/
def Undisturbed (s s' : Disk) : Prop :=
  s'.dkIov = s.dkIov ∧ ∀ j ≤ diskFeedmax, ∀ va, (s.dkIov j).iovBase = some va →
    (s'.mem.info (va / pgsize)).piHwRef = (s.mem.info (va / pgsize)).piHwRef

lemma Handed.disturbs {s v : Disk} {h : ℕ} (hr : ¬ r.Invalid) (hhdr : s.dkHdr = some h)
    (hv : Handed r s v) : ¬ Undisturbed s v := by
  rintro ⟨hsame, hpins⟩
  obtain ⟨u, hu, -, -, hiov, hpin⟩ := hv
  have heq : r.hdr = h := by
    rw [Disk.dkHdr, ← hsame, hiov] at hhdr
    simpa [Disk.setBase] using hhdr
  have hle : r.iovCnt ≤ diskFeedmax + 1 := by
    by_contra hgt
    exact absurd (Has.le hr (hu.has (diskFeedmax + 1) (by omega))) (by omega)
  obtain ⟨n, hn, hx⟩ := hu.pins (h / pgsize)
  have hkeep : pins v.mem (h / pgsize) = pins s.mem (h / pgsize) :=
    congrArg Nat.cast (hpins diskFeedmax le_rfl h hhdr)
  rw [hpin, hx, heq, count_singleton_self, add_assoc, ← Nat.cast_add] at hkeep
  exact cast_ne_zero (Nat.lt_of_le_of_lt (by omega : n + 1 ≤ diskFeedmax + 2) (by decide))
    (Nat.succ_ne_zero n) (add_eq_left.mp hkeep)

/-- **Only a request with a bad header leaves the outstanding one alone.** -/
theorem ideFeed_undisturbed_iff {c c' : IdeChannel} {r : Request} {ready : Bool} {h : ℕ}
    (hbusy : c.op ≠ .none) (hhdr : c.dk.dkHdr = some h) (hs : c.dk.Paged)
    (hfeed : (ideFeed r ready).next c = some c') :
    (Undisturbed c.dk c'.dk ↔ r.Invalid) ∧ (r.Invalid → c' = c) := by
  by_cases hr : r.Invalid
  · have hinvalid : ({ r with answer := none } : Request).Invalid := hr
    have hsame : c' = c := by
      refine next_of_wp (I := fun t => t = c) ?_ hfeed
      simp only [ideFeed, wp_bind, wp_zoom, diskFeed, if_pos hinvalid, wp_raise]
    subst hsame
    exact ⟨⟨fun _ => hr, fun _ => ⟨rfl, fun _ _ _ _ => rfl⟩⟩, fun _ => rfl⟩
  · refine ⟨⟨fun hu => absurd hu ?_, fun h => absurd h hr⟩, fun h => absurd h hr⟩
    refine next_of_wp (I := fun t => ¬ Undisturbed c.dk t.dk) ?_ hfeed
    simp only [ideFeed, wp_bind, wp_zoom]
    refine wp_mono (diskFeed_handed (r := { r with answer := none }) hs hr) (fun _ v hv => ?_)
      fun _ v hv => ?_
    · simp only [ideIssue, wp_bind, wp_state, if_pos hbusy, wp_raise]
      exact hv.disturbs (r := { r with answer := none }) hr hhdr
    · rcases hv with hnone | hv
      · intro hu
        rw [Disk.dkHdr, hu.1, ← Disk.dkHdr, hhdr] at hnone
        cases hnone
      · exact hv.disturbs (r := { r with answer := none }) hr hhdr

/-- A channel that works on a request without data. -/
def working : IdeChannel where
  op := .read
  dk := onePage.setBase diskFeedmax (some (8 * 4096))

/-- A count that is not one of sectors. -/
theorem ideFeed_undisturbed_working :
    (ideFeed { beyondEnd with count := 1 } true).next working = some working ∧
      Undisturbed working.dk working.dk := by
  have hfeed : (ideFeed { beyondEnd with count := 1 } true).next working = some working := rfl
  exact ⟨hfeed, (ideFeed_undisturbed_iff (c := working) (by decide) rfl onePage_proper.arrays
    hfeed).1.mpr (by decide)⟩

/-- A channel that reads a sector into a segment of one page. -/
def reading : IdeChannel := (ideFeed { beyondEnd with count := 512 } true { dk := onePage }).2

/-- **A second request takes the place of the outstanding one**: it is refused as the channel is
busy, and the header that will be marked done is its own. -/
theorem ideFeed_replaces_header :
    (ideFeed { beyondEnd with count := 512 } true { dk := onePage }).1 = .ok () ∧
    (ideFeed { beyondEnd with count := 512, hdr := 8 * 4096 + 1024 } true reading).1 = .err .busy ∧
    ¬ Undisturbed reading.dk
      (ideFeed { beyondEnd with count := 512, hdr := 8 * 4096 + 1024 } true reading).2.dk := by
  refine ⟨by decide +kernel, by decide +kernel, fun h => ?_⟩
  have hhdr := congrArg Kiovec.iovBase (congrFun h.1 diskFeedmax)
  exact absurd hhdr (by decide +kernel)

/-! ### What the drive is told -/

/-- Where the bytes of a region are. -/
def IdePrd.bytes (d : IdePrd) : List (Option ℕ) :=
  (List.range (d.count % 65536)).map fun i => some (d.addr + i)

/-- The number of sectors that is in the registers. -/
def IdeChannel.sectors (c : IdeChannel) : ℕ :=
  if c.cmd ideRegSectorCount = 0 then 256 else c.cmd ideRegSectorCount

/-- The first sector that is in the registers. -/
def IdeChannel.lba (c : IdeChannel) : ℕ :=
  c.cmd ideRegLbaLow + c.cmd ideRegLbaMid * 2 ^ 8 + c.cmd ideRegLbaHi * 2 ^ 16 +
    c.cmd ideRegDevice % 16 * 2 ^ 24

/-- The drive is told the sectors of the request, and the table has the bytes of the entries. -/
structure Reaches (r : Request) (c : IdeChannel) : Prop where
  sectors : c.sectors = r.count / 512
  lba : c.lba = r.address / 512
  table : ∃ n ≤ nprdslots, (∀ j < n, (c.bmPrd j).count.testBit 31 = true ↔ j + 1 = n) ∧
    (List.range n).flatMap (fun j => (c.bmPrd j).bytes) =
      (List.range r.iovCnt).flatMap fun j => (c.dk.dkIov j).bytes

/-- The slots before `prd` have the bytes of the entries before `iov` and of the beginning of that
one. -/
structure Listed (c : IdeChannel) (prd iov start nb : ℕ) : Prop where
  le : iov ≤ c.iovCnt
  inside : start ≤ (c.dk.dkIov iov).iovLen
  ended : iov = c.iovCnt → start = 0
  marks : ∀ j < prd, (c.bmPrd j).count.testBit 31 = true ↔ iov = c.iovCnt ∧ j + 1 = prd
  bytes : (List.range prd).flatMap (fun j => (c.bmPrd j).bytes) =
    (List.range iov).flatMap (fun j => (c.dk.dkIov j).bytes) ++ (c.dk.dkIov iov).bytes.take start
  nbytes : nb = ((List.range iov).map fun j => (c.dk.dkIov j).iovLen).sum + start

lemma bytes_take {v : Kiovec} (hb : v.iovBase = some b) (hk : k ≤ v.iovLen) :
    v.bytes.take k = (range k).map fun i => some (b + i) := by
  rw [Kiovec.bytes, hb, ← map_take, take_range, Nat.min_eq_left hk]
  rfl

def IdeChannel.setPrd (c : IdeChannel) (slot addr count : ℕ) : IdeChannel :=
  { c with bmPrd := update c.bmPrd slot ⟨addr, count⟩ }

lemma Listed.next {cnt : ℕ} (h : Listed c prd iov start nb) (hlt : iov < c.iovCnt)
    (hb : (c.dk.dkIov iov).iovBase = some b) (hlen : start + n ≤ (c.dk.dkIov iov).iovLen)
    (hcnt : cnt % 65536 = n)
    (hmark : cnt.testBit 31 = true ↔ start + n = (c.dk.dkIov iov).iovLen ∧ iov + 1 = c.iovCnt) :
    Listed (c.setPrd prd (b + start) cnt) (prd + 1)
      (if start + n = (c.dk.dkIov iov).iovLen then iov + 1 else iov)
      (if start + n = (c.dk.dkIov iov).iovLen then 0 else start + n) (nb + n) := by
  have hold : ∀ j < prd, (c.setPrd prd (b + start) cnt).bmPrd j = c.bmPrd j := fun j hj =>
    update_of_ne hj.ne _ _
  have hnew : (c.setPrd prd (b + start) cnt).bmPrd prd = ⟨b + start, cnt⟩ := update_self _ _ _
  have hbytes : (range (prd + 1)).flatMap
      (fun j => ((c.setPrd prd (b + start) cnt).bmPrd j).bytes) =
      (range iov).flatMap (fun j => (c.dk.dkIov j).bytes) ++
        (c.dk.dkIov iov).bytes.take (start + n) := by
    rw [range_succ, flatMap_append, flatMap_congr fun j hj =>
      congrArg IdePrd.bytes (hold j (mem_range.mp hj)), h.bytes, bytes_take hb h.inside,
      bytes_take hb hlen, range_add]
    simp [hnew, IdePrd.bytes, hcnt, Nat.add_assoc]
  have hmarks : ∀ j < prd + 1, ((c.setPrd prd (b + start) cnt).bmPrd j).count.testBit 31 = true ↔
      (start + n = (c.dk.dkIov iov).iovLen ∧ iov + 1 = c.iovCnt) ∧ j + 1 = prd + 1 := by
    intro j hj
    rcases Nat.lt_succ_iff_lt_or_eq.mp hj with hj | rfl
    · rw [hold j hj, h.marks j hj]
      omega
    · rw [hnew, hmark]
      simp
  split_ifs with hlast
  · refine ⟨hlt, Nat.zero_le _, fun _ => rfl, fun j hj => ?_, ?_, ?_⟩
    · exact (hmarks j hj).trans (by simp [hlast, IdeChannel.setPrd])
    · have hwhole : (c.dk.dkIov iov).bytes.length = (c.dk.dkIov iov).iovLen := by
        simp [Kiovec.bytes]
      rw [hbytes, hlast, ← hwhole, take_length, take_zero, append_nil,
        range_succ, flatMap_append, flatMap_singleton]
      rfl
    · rw [range_succ, map_append, sum_append, map_singleton,
        sum_singleton, h.nbytes, Nat.add_assoc, hlast]
      rfl
  · refine ⟨hlt.le, hlen, fun he => absurd he hlt.ne, fun j hj => ?_, hbytes, ?_⟩
    · rw [hmarks j hj]
      exact ⟨fun h => absurd h.1.1 hlast, fun h => absurd h.1 hlt.ne⟩
    · rw [h.nbytes, Nat.add_assoc]
      rfl

lemma mark (p : Prop) [Decidable p] (hn : n < 65536) :
    (if p then n ||| idePrdEot else n) % 65536 = n ∧
      ((if p then n ||| idePrdEot else n).testBit 31 = true ↔ p) := by
  have hbit : n.testBit 31 = false := Nat.testBit_lt_two_pow (hn.trans (by decide))
  split_ifs with hp
  · refine ⟨?_, by
      simp only [hp, idePrdEot, Nat.testBit_or, Nat.testBit_two_pow_self, Bool.or_true]⟩
    rw [show 65536 = 2 ^ 16 from rfl, Nat.or_mod_two_pow, Nat.mod_eq_of_lt hn]
    exact Nat.or_zero n
  · exact ⟨Nat.mod_eq_of_lt hn, by simp [hp, hbit]⟩

lemma ideDmaInit_lists : ∀ {k prd iov start nb : ℕ} {c : IdeChannel}, prd + k = nprdslots →
    Listed c prd iov start nb → wp (ideDmaInit k prd iov start nb)
      (fun nb' c' => ∃ n ≤ nprdslots, c' = { c with bmPrd := c'.bmPrd } ∧
        Listed c' n c.iovCnt 0 nb') .any c := by
  intro k
  have hdone : ∀ {prd iov start nb : ℕ} {c : IdeChannel}, Listed c prd iov start nb →
      c.iovCnt ≤ iov → Listed c prd c.iovCnt 0 nb := fun h hle => by
    have heq := le_antisymm h.le hle
    rwa [← heq, ← h.ended heq]
  induction k with
  | zero =>
    intro prd iov start nb c hsum h
    simp only [ideDmaInit, wp_rules]
    exact ⟨fun hle => ⟨prd, hsum.le, trivial, hdone h hle⟩, fun _ => trivial⟩
  | succ k ih =>
    intro prd iov start nb c hsum h
    simp only [ideDmaInit, wp_rules]
    refine ⟨fun hle => ⟨prd, by omega, trivial, hdone h hle⟩, fun hlt =>
      ⟨fun b hb => ⟨fun _ => ?_, fun _ => trivial⟩, fun _ => trivial⟩⟩
    set n := min (pgsize - (b + start) % pgsize) ((c.dk.dkIov iov).iovLen - start) with hn
    have hsmall : n < 65536 := by
      simp only [pgsize] at hn
      omega
    have hinside := h.inside
    have hiff : (if start + n = (c.dk.dkIov iov).iovLen then iov + 1 else iov) = c.iovCnt ↔
        start + n = (c.dk.dkIov iov).iovLen ∧ iov + 1 = c.iovCnt := by
      split_ifs <;> omega
    rw [Nat.mod_eq_of_lt hsmall]
    exact ih (by omega) (h.next (Nat.lt_of_not_le hlt) hb (by omega) (mark _ hsmall).1
      ((mark _ hsmall).2.trans hiff))

/-! ### A request that is accepted -/

lemma lba_outb (n d : ℕ) : n % 256 + n / 2 ^ 8 % 256 * 2 ^ 8 + n / 2 ^ 16 % 256 * 2 ^ 16 +
    (ideDevLba ||| d * 16 ||| n / 2 ^ 24 % 16) % 256 % 16 * 2 ^ 24 = n % 2 ^ 28 := by
  have hdev : (ideDevLba ||| d * 16 ||| n / 2 ^ 24 % 16) % 256 % 16 = n / 2 ^ 24 % 16 := by
    rw [Nat.mod_mod_of_dvd _ (by decide : 16 ∣ 256), show 16 = 2 ^ 4 from rfl, Nat.or_mod_two_pow,
      Nat.or_mod_two_pow]
    simp [ideDevLba]
  rw [hdev]
  omega

lemma ideSend_tells (hop : c.op ≠ .none ∧ c.op ≠ .flush)
    (hn : ((range c.iovCnt).map fun j => (c.dk.dkIov j).iovLen).sum = n) :
    wp (ideSend ready) (fun _ c' => c'.cmd ideRegSectorCount = n / 512 % 256 ∧
      c'.lba = c.byteOffset / 512 % 2 ^ 28 ∧
      ∃ m ≤ nprdslots, (∀ j < m, (c'.bmPrd j).count.testBit 31 = true ↔ j + 1 = m) ∧
        (range m).flatMap (fun j => (c'.bmPrd j).bytes) =
          (range c.iovCnt).flatMap fun j => (c'.dk.dkIov j).bytes) .any c := by
  simp only [ideSend, outb, wp_rules]
  refine ⟨fun _ => trivial, fun _ => ?_⟩
  split
  · exact absurd ‹_› hop.1
  · exact absurd ‹_› hop.2
  · simp only [wp_rules, ideSelectSectors, outb]
    refine wp_post (ideDmaInit_lists (Nat.zero_add _) ⟨Nat.zero_le _, Nat.zero_le _, fun _ => rfl,
      (by simp), by simp, rfl⟩) fun nb c' h => ?_
    obtain ⟨m, hm, hc, h⟩ := h
    have hdk : c'.dk = c.dk := by rw [hc]
    have hcnt : c'.iovCnt = c.iovCnt := by rw [hc]
    have hnb : nb = n := by
      rw [h.nbytes, Nat.add_zero, hdk, hn]
    simp only [implies_true, and_true]
    intro _ _ _ _
    refine ⟨by simp [ideRegSectorCount, ideRegLbaLow, ideRegLbaMid, ideRegLbaHi, ideRegDevice,
      ideRegCmd, hnb], ?_, m, hm, fun j hj => ?_, ?_⟩
    · have hlba := lba_outb (c.byteOffset / 512 % Kern.word32) c'.diskno
      rw [Nat.mod_mod_of_dvd _ (by decide : 2 ^ 28 ∣ Kern.word32)] at hlba
      exact hlba
    · exact (h.marks j hj).trans (and_iff_right hcnt.symm)
    · rw [h.bytes, take_zero, append_nil]

lemma sum_len (r : Request) (n : ℕ) : ((range n).map r.len).sum = r.before n := by
  induction n with
  | zero => simp [Request.before]
  | succ n ih => simp [range_succ, ih, before_succ]

/-- **The drive is told what was asked for just if there is something to transfer and the first
sector has 28 bits.** -/
theorem ideFeed_reaches_iff {c : IdeChannel} {r : Request} {ready : Bool} (hs : c.dk.Paged)
    (hfeed : (ideFeed r ready c).1 = .ok ()) :
    Reaches r (ideFeed r ready c).2 ↔ r.count ≠ 0 ∧ r.address / 512 < 2 ^ 28 := by
  have h : wp (ideFeed r ready) (fun _ c' => Reaches r c' ↔
      r.count ≠ 0 ∧ r.address / 512 < 2 ^ 28) Exits.any c := by
    simp only [ideFeed, wp_bind, wp_zoom]
    by_cases hr : r.Invalid
    · have hinvalid : ({ r with answer := none } : Request).Invalid := hr
      simp only [diskFeed, if_pos hinvalid, wp_raise]
    · refine wp_mono (diskFeed_handed (r := { r with answer := none }) hs hr) (fun _ v hv => ?_)
        fun _ _ _ => trivial
      obtain ⟨u, hu, hend, -, hiov, -⟩ := hv
      have hlen : ((range r.iovCnt).map fun j => (v.dkIov j).iovLen).sum = r.count := by
        rw [← hend, ← sum_len]
        refine congrArg sum (map_congr_left fun j hj => ?_)
        obtain ⟨p, -, hp⟩ := hu.piece j (mem_range.mp hj)
        rw [hiov, Disk.setBase]
        simp only [update_apply]
        split_ifs with hlast
        · rw [← hlast, hp]
        · rw [hp]
      simp only [ideIssue, wp_rules, wp_onErr]
      refine ⟨fun _ => trivial, fun _ => ?_⟩
      refine wp_mono (ideSend_tells (n := r.count) (by split_ifs <;> simp) hlen) (fun _ c' h => ?_)
        fun _ _ _ => trivial
      obtain ⟨hcount, hlba, htable⟩ := h
      dsimp only at hlba
      simp only [Request.Invalid, diskReqmax] at hr
      have hsectors : c'.sectors = r.count / 512 ↔ r.count ≠ 0 := by
        rw [IdeChannel.sectors, hcount]
        split_ifs <;> omega
      refine ⟨fun h => ⟨hsectors.mp h.sectors, ?_⟩, fun h => ⟨hsectors.mpr h.1, ?_, htable⟩⟩
      · rw [← h.lba, hlba]
        exact Nat.mod_lt _ (by decide)
      · rw [hlba, Nat.mod_eq_of_lt h.2]
  have hreaches := wp_ok h (Prod.ext hfeed rfl)
  exact hreaches

/-- The drive is told of 16 sectors, which go to three pages. -/
theorem ideFeed_reaches_threePages :
    (ideFeed threePages true { dk := manyPages }).1 = .ok () ∧
      Reaches threePages (ideFeed threePages true { dk := manyPages }).2 := by
  have hok : (ideFeed threePages true { dk := manyPages }).1 = .ok () := by decide +kernel
  exact ⟨hok, (ideFeed_reaches_iff (c := { dk := manyPages }) manyPages_paged hok).mpr (by decide)⟩

/-- **A request for nothing is one for 256 sectors, and one for a high sector is for a low one.** -/
theorem ideFeed_other_sectors :
    (ideFeed { beyondEnd with count := 0 } true { dk := onePage }).1 = .ok () ∧
      ¬ Reaches { beyondEnd with count := 0 }
        (ideFeed { beyondEnd with count := 0 } true { dk := onePage }).2 ∧
      (ideFeed { beyondEnd with count := 512, address := 2 ^ 37 } true
        { dk := onePage }).1 = .ok () ∧
      (ideFeed { beyondEnd with count := 512, address := 2 ^ 37 } true
        { dk := onePage }).2.lba = 0 := by
  refine ⟨by decide +kernel, fun h => absurd h.sectors (by decide +kernel),
    by decide +kernel, by decide +kernel⟩

end Corey.Dev
