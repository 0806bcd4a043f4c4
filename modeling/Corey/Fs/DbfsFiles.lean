import Corey.Fs.DbfsWrites

/-!
Files of the disk file system as arrays of bytes.
-/

namespace Corey.Fs.Dbfs

open Corey.Comp

variable {d t w : Disk} {X : Exits Errno Disk} {n i k pos off fin count : ℕ} {buf ino : Bytes}
  {files : List ℕ}

section Reading

lemma wp_readLoop {N : ℕ} (hN : N ≤ 256) (hlt : ∀ j < N, dblock ino j < 32768)
    (hfin : fin ≤ 4096 * N) (hoff : off ≤ fin) (hal : off % 512 = 0)
    (hk : i + k = max i (nblocks fin)) (hstart : off / 4096 ≤ i)
    (hpos : 0 < k → pos + off = max off (4096 * i)) :
    wp (doBlocks (fun block pos blkoff blklen r => readBlock block r pos blkoff blklen) ino off fin
        k i pos buf)
      (fun r t => t = d ∧ ∀ q < fin - off, r q = if 4096 * i ≤ off + q
        then d (4096 * dblock ino ((off + q) / 4096) + (off + q) % 4096) else buf q)
      .never d := by
  have hnb : nblocks fin = (fin + 4095) / 4096 := by
    unfold nblocks
    omega
  induction k generalizing i pos buf with
  | zero => exact ⟨rfl, fun q hq => by rw [if_neg (by omega)]⟩
  | succ k ih =>
    have hpos := hpos (by omega)
    rw [wp_doBlocks_succ rfl rfl (by omega) hstart (by omega)]
    refine (wp_readBlock (hlt i (by omega)) (by omega) (by omega)).mpr ?_
    refine wp_post (ih (by omega) (by omega) (by omega)) fun r t ⟨ht, hr⟩ => ⟨ht, fun q hq => ?_⟩
    rw [hr q hq]
    by_cases h1 : 4096 * (i + 1) ≤ off + q
    · rw [if_pos h1, if_pos (by omega)]
    · rw [if_neg h1]
      by_cases h2 : 4096 * i ≤ off + q
      · -- the byte is in the piece that this round reads
        obtain rfl : i = (off + q) / 4096 := by omega
        rw [if_pos h2, Bytes.put_within (by omega) (by omega), Bytes.start_apply]
        exact congrArg d (by omega)
      · rw [if_neg h2, Bytes.put_away (by omega)]

lemma wp_pread (hs : Sound d files) (hn : n ∈ files) (hoff : off ≤ len d n)
    (hal : off % 512 = 0) (hc : off + count < 2 ^ 64) :
    wp (pread n buf count off) (fun r t => t = d ∧ r.1 = min count (len d n - off) ∧
      ∀ q < r.1, r.2 q = byteAt d n (off + q)) .never d := by
  have hlen := hs.fits n hn
  obtain ⟨fin, hfin⟩ : ∃ fin, fin = min (len d n) (off + count) := ⟨_, rfl⟩
  have hl : inodeLen (d.start (4096 * n)) = len d n := rfl
  have hnb : fin ≤ 4096 * nblocks (len d n) := by
    unfold nblocks
    omega
  have hle : off ≤ fin := by omega
  unfold pread
  rw [wp_bind, wp_readInode (hs.lt hn)]
  dsimp only
  rw [hl, Nat.mod_eq_of_lt hc, ← hfin, show (fin + 2 ^ 64 - off) % 2 ^ 64 = fin - off by omega,
    wp_seq, require, if_pos (by omega), wp_pure, wp_bind]
  refine wp_post (wp_readLoop (hs.nblocks_le hn) (fun j hj => (hs.marked (.data n j) ⟨hn, hj⟩).1)
    hnb hle hal ?_ le_rfl (fun _ => by omega)) fun r t ht =>
      ⟨ht.1, by omega, fun q hq => ?_⟩
  · unfold nblocks
    omega
  · exact (ht.2 q hq).trans (if_pos (by omega))

lemma wp_pread_beyond {Q : ℕ × Bytes → Disk → Prop} (hs : Sound d files) (hn : n ∈ files)
    (hoff : len d n < off) (hc : off + count < 2 ^ 64) :
    wp (pread n buf count off) Q X d ↔ X.stop .panic d := by
  have hl : inodeLen (d.start (4096 * n)) = len d n := rfl
  unfold pread
  rw [wp_bind, wp_readInode (hs.lt hn)]
  dsimp only
  rw [hl, Nat.mod_eq_of_lt hc, min_eq_left (by omega), wp_seq, require, if_neg (by omega)]
  rfl

end Reading

section Contents

/-- What the file has at a position beyond its end, once it is that long: what is left in its
last block, or in the free blocks it will get. -/
def exposed (d : Disk) (n p : ℕ) : Byte :=
  if p / 4096 < nblocks (len d n) then byteAt d n p
  else match (freeBlocks d)[p / 4096 - nblocks (len d n)]? with
    | some b => d (4096 * b + p % 4096)
    | none => 0

lemma Grown.byteAt_exposed {m p : ℕ} (g : Grown n m d t) (hs : Sound d files) (hn : n ∈ files)
    (hm : m ≤ 4096 * 256) (hp : p < m) : Dbfs.byteAt t n p = exposed d n p := by
  unfold exposed
  split_ifs with h
  · exact g.byteAt hs hn (by omega)
  · have hb := g.added (p / 4096) (not_lt.mp h) (by unfold nblocks; omega)
    have hfree := List.mem_of_getElem? hb
    rw [hb, Dbfs.byteAt]
    refine g.sameBlock ?_ ?_ _ (Nat.mod_lt _ (by omega))
    · intro h0
      rw [h0] at hfree
      exact hs.not_free (u := .superblock) trivial hfree
    · intro hbn
      rw [hbn] at hfree
      exact hs.not_free (u := .inode n) hn hfree

end Contents

section Arrays

inductive FileOp
  | pwrite (buf : Bytes) (count off : ℕ)
  | truncate (newSize : ℕ)
  | pread (count off : ℕ)

/-- The number an operation returns, and the bytes it delivers. -/
def FileOp.run (n : ℕ) : FileOp → DM (ℕ × List Byte)
  | .pwrite buf count off => do return (← Dbfs.pwrite n buf count off, [])
  | .truncate newSize => do
    Dbfs.truncate n newSize
    return (0, [])
  | .pread count off => do
    let r ← Dbfs.pread n 0 count off
    return (r.1, (List.range r.1).map r.2)

def file (n : ℕ) : Process Disk FileOp (Except Errno (ℕ × List Byte)) where
  step op := (op.run n).reply

/-- A plain array of bytes and its length; what was never written is zero. -/
def byteArray : Process (ℕ × Bytes) FileOp (Except Errno (ℕ × List Byte)) where
  step
    | .pwrite buf count off, (len, b) =>
      some (.ok (count, []), max len (off + count), b.put off buf count)
    | .truncate newSize, (len, b) =>
      if newSize < len then some (.error .inval, len, b) else some (.ok (0, []), newSize, b)
    | .pread count off, (len, b) =>
      let n := min count (len - off)
      some (.ok (n, (List.range n).map (b.start off)), len, b)

/-- A write or a larger size finds room and what it leaves unwritten is zero on the disk; a
read starts at a sector, inside the file. -/
def Served (n : ℕ) (d : Disk) : FileOp → Prop
  | .pwrite _ count off => off + count < 2 ^ 64 ∧ Room d n (off + count) ∧
      ∀ p < off, len d n ≤ p → exposed d n p = 0
  | .truncate newSize => len d n ≤ newSize →
      Room d n newSize ∧ ∀ p < newSize, len d n ≤ p → exposed d n p = 0
  | .pread count off => off ≤ len d n ∧ off % 512 = 0 ∧ off + count < 2 ^ 64

/-- The file has the length and the bytes of the array, which is zero beyond its end. -/
structure Holds (files : List ℕ) (n : ℕ) (d : Disk) (l : ℕ) (a : Bytes) : Prop where
  sound : Sound d files
  len : Dbfs.len d n = l
  bytes : ∀ p < l, byteAt d n p = a p
  zero : ∀ p, l ≤ p → a p = 0

lemma reply_of_wp {op : FileOp} {r : ℕ × List Byte} {Q : Disk → Prop}
    (h : wp (op.run n) (fun r' t => r' = r ∧ Q t) .never d) :
    ∃ t, (file n).step op d = some (.ok r, t) ∧ Q t := by
  obtain ⟨_, t, hm, rfl, hq⟩ := ok_of_never h
  exact ⟨t, by simp only [file, reply, hm], hq⟩

variable {l : ℕ} {a : Bytes}

lemma Holds.pwrite (h : Holds files n d l a) (hn : n ∈ files)
    (hc : Served n d (.pwrite buf count off)) :
    ∃ t, (file n).step (.pwrite buf count off) d = some (.ok (count, []), t) ∧
      Holds files n t (max l (off + count)) (a.put off buf count) := by
  obtain ⟨h64, hr, hz⟩ := hc
  have hs := h.sound
  refine reply_of_wp ?_
  simp only [FileOp.run, wp_bind]
  refine wp_post (wp_pwrite hs hn (Nat.mod_eq_of_lt h64).symm hr (.inl (by omega)))
    fun _ t ht => ⟨by rw [ht.1], ?_⟩
  obtain ⟨-, w, g, wr⟩ := ht
  have hmax : max (Dbfs.len d n) (off + count) ≤ 4096 * 256 := max_le (hs.fits n hn) hr.1
  have hw : Sound w files := hs.grown hmax g
  rw [h.len] at g hmax hz
  refine ⟨hw.wrote hn wr, by rw [(wr.sameInode hw hn hn).len, g.len], fun p hp => ?_,
    fun p hp => ?_⟩
  · rw [wr.byteAt hw hn (by rw [g.len]; exact lt_nblocks hp hmax)]
    split_ifs with hin
    · exact (Bytes.put_within hin.1 hin.2).symm
    · rw [Bytes.put_away (by omega)]
      rcases Nat.lt_or_ge p l with hpa | hpa
      · rw [g.byteAt hs hn (lt_nblocks (by rwa [h.len]) (hs.fits n hn)), h.bytes p hpa]
      · rw [g.byteAt_exposed hs hn hmax hp, hz p (by omega) hpa, h.zero p hpa]
  · rw [Bytes.put_away (by omega), h.zero p (by omega)]

lemma Holds.truncate {newSize : ℕ} (h : Holds files n d l a) (hn : n ∈ files)
    (hc : Served n d (.truncate newSize)) (hle : l ≤ newSize) :
    ∃ t, (file n).step (.truncate newSize) d = some (.ok (0, []), t) ∧
      Holds files n t newSize a := by
  have hs := h.sound
  obtain ⟨hr, hz⟩ := hc (by rwa [h.len])
  refine reply_of_wp ?_
  simp only [FileOp.run, wp_seq]
  refine wp_post (wp_truncate (hs.inode_pos hn) (hs.lt hn) (by rwa [h.len]) hr)
    fun _ t g => ⟨rfl, hs.grown hr.1 g, g.len, fun p hp => ?_,
      fun p hp => h.zero p (hle.trans hp)⟩
  rcases Nat.lt_or_ge p l with hpa | hpa
  · rw [g.byteAt hs hn (lt_nblocks (by rwa [h.len]) (hs.fits n hn)), h.bytes p hpa]
  · rw [g.byteAt_exposed hs hn hr.1 hp, hz p hp (by rwa [h.len]), h.zero p hpa]

lemma Holds.pread (h : Holds files n d l a) (hn : n ∈ files) (hc : Served n d (.pread count off)) :
    (file n).step (.pread count off) d = some (.ok (min count (l - off),
      (List.range (min count (l - off))).map (a.start off)), d) := by
  obtain ⟨hoff, hal, h64⟩ := hc
  have hrun : wp (FileOp.run n (.pread count off)) (fun r t =>
      r = (min count (l - off), (List.range (min count (l - off))).map (a.start off)) ∧ t = d)
      .never d := by
    simp only [FileOp.run, wp_bind]
    refine wp_post (wp_pread h.sound hn hoff hal h64) fun r t ht => ⟨?_, ht.1⟩
    obtain ⟨-, hlen, hr⟩ := ht
    rw [h.len] at hlen
    rw [hlen] at hr
    rw [hlen, Prod.mk.injEq]
    refine ⟨rfl, List.map_congr_left fun q hq => ?_⟩
    have hq := List.mem_range.mp hq
    rw [hr q hq, Bytes.start_apply, h.bytes _ (by omega)]
  obtain ⟨_, hstep, rfl⟩ := reply_of_wp hrun
  exact hstep

lemma Holds.step {op : FileOp} (h : Holds files n d l a) (hn : n ∈ files) (hc : Served n d op) :
    ∃ o t b, (file n).step op d = some (o, t) ∧ byteArray.step op (l, a) = some (o, b) ∧
      Holds files n t b.1 b.2 := by
  cases op with
  | pwrite buf count off =>
    obtain ⟨t, hstep, ht⟩ := h.pwrite hn hc
    exact ⟨_, t, _, hstep, rfl, ht⟩
  | truncate newSize =>
    rcases Nat.lt_or_ge newSize l with hlt | hle
    · refine ⟨.error .inval, d, (l, a), ?_, by simp [byteArray, hlt], h⟩
      refine reply_eq_error.mpr ?_
      show Comp.bind _ _ d = _
      rw [Comp.bind, truncate_lt h.sound hn (by rwa [h.len])]
    · obtain ⟨t, hstep, ht⟩ := h.truncate hn hc hle
      exact ⟨_, t, (newSize, a), hstep, by simp [byteArray, hle.not_gt], ht⟩
  | pread count off => exact ⟨_, d, (l, a), h.pread hn hc, rfl, h⟩

/-- **Files hold what was written.** A run of writes, larger sizes and reads on an empty file,
each of which is served, gives the answers of a plain array of bytes. -/
theorem file_refines_byteArray (hs : Sound d files) (hn : n ∈ files) (h0 : len d n = 0)
    {l : List FileOp} (h : (file n).Meets (Served n) l d) :
    ∃ os t b, (file n).trace l d = some (os, t) ∧ byteArray.trace l (0, 0) = some (os, b) := by
  have hholds : Holds files n d 0 0 := ⟨hs, h0, fun p hp => absurd hp (by omega), fun _ _ => rfl⟩
  obtain ⟨os, t, b, h1, h2, _⟩ := Process.trace_of_meets (R := fun d a => Holds files n d a.1 a.2)
      (fun op d a hh hc => Holds.step hh hn hc) (t := (0, 0)) hholds h
  exact ⟨os, t, b, h1, h2⟩

/-- Four bytes are written and read. -/
theorem file_refines_byteArray_four : ∃ s n t, dbfs.Reach Fits s ∧ s.2 = [n, 1] ∧
    (file n).trace [.pwrite (fun _ => 7) 4 0, .pread 20 0] s.1 =
      some ([.ok (4, []), .ok (4, [7, 7, 7, 7])], t) := by
  obtain ⟨s, n, h, hs, _, hlen, hfree⟩ := exists_created [0x61]
  have hn : n ∈ s.2 := by
    rw [hs]
    exact List.mem_cons_self
  have hroom : Room s.1 n (0 + 4) := by
    rw [Room, hlen, hfree]
    decide
  obtain ⟨os, t, b, h1, h2⟩ := file_refines_byteArray (l := [.pwrite (fun _ => 7) 4 0, .pread 20 0])
    (reach_sound h).1 hn hlen
    ⟨⟨by decide, hroom, fun p hp => absurd hp (by omega)⟩, fun _ _ _ =>
      ⟨⟨Nat.zero_le _, rfl, by decide⟩, fun _ _ _ => trivial⟩⟩
  have h3 : byteArray.trace [.pwrite (fun _ => 7) 4 0, .pread 20 0] (0, 0) =
      some ([.ok (4, []), .ok (4, [7, 7, 7, 7])], 4, Bytes.put 0 0 (fun _ => 7) 4) := rfl
  obtain ⟨rfl, -⟩ := Prod.mk.inj (Option.some.inj (h2.symm.trans h3))
  exact ⟨s, n, t, h, hs, h1⟩

/-- A read beyond the end of an empty file does not return. -/
theorem pread_beyond_panics : ∃ s n, dbfs.Reach Fits s ∧ s.2 = [n, 1] ∧ len s.1 n = 0 ∧
    (pread n 0 1 1 s.1).1 = .stop .panic ∧
      byteArray.step (.pread 1 1) (0, 0) = some (.ok (0, []), 0, 0) := by
  obtain ⟨s, n, h, hs, _, hlen, _⟩ := exists_created [0x61]
  refine ⟨s, n, h, hs, hlen, ?_, rfl⟩
  have hpanic : pread n 0 1 1 s.1 = (.stop .panic, s.1) :=
    eq_stop_of_wp ((wp_pread_beyond (reach_sound h).1 (by rw [hs]; exact List.mem_cons_self)
      (by omega) (by decide)).mpr ⟨rfl, rfl⟩)
  rw [hpanic]

end Arrays

end Corey.Fs.Dbfs
