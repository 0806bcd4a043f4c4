import Corey.Fs.Dbfs

/-!
The blocks of the disk file system.

Every operation is described by the blocks it changes: an allocation by the superblock, a
growing file by its inode, a write by data blocks of the file. From this it follows that no
block has two uses.
-/

namespace Corey.Fs.Dbfs

open Function Corey.Comp List

variable {α : Type} {d t : Disk} {X : Exits Errno Disk} {b n i pos off k : ℕ} {buf : Bytes}

section Sectors

lemma wp_echeck {m : DM α} {Q : α → Disk → Prop} :
    wp (echeck m) Q X d ↔ wp m Q ⟨fun _ t => X.stop .panic t, X.stop⟩ d := by
  unfold echeck
  rw [wp_bind, wp_attempt]
  simp only [wp]
  rcases m d with ⟨_ | _ | _, _⟩ <;> rfl

variable {Q : Bytes → Disk → Prop}

lemma wp_diskRead (h : off % 512 = 0) (hn : n % 512 = 0)
    (hc : off + n ≤ capacity) : wp (diskRead off n) Q X d ↔ Q (d.start off) d := by
  unfold diskRead
  rw [if_neg (by omega), if_neg (by omega)]
  rfl

lemma wp_diskWrite {Q : Unit → Disk → Prop} (h : off % 512 = 0) (hn : n % 512 = 0)
    (hc : off + n ≤ capacity) : wp (diskWrite off n buf) Q X d ↔ Q () (d.put off buf n) := by
  unfold diskWrite
  rw [if_neg (by omega), if_neg (by omega)]
  rfl

lemma address_eq (hb : b < 32768) (ho : off ≤ 4096) : address b off = 4096 * b + off :=
  Nat.mod_eq_of_lt (by omega)

lemma address_le (hb : b < 32768) (ho : off ≤ 4096) (hn : n ≤ 4096) :
    address b off + n ≤ capacity := by
  rw [address_eq hb ho, capacity]
  omega

lemma wp_readInode (hn : n < 32768) : wp (readInode n) Q X d ↔ Q (d.start (4096 * n)) d := by
  have ha := address_eq hn (Nat.zero_le 4096)
  unfold readInode
  rw [wp_echeck, wp_diskRead (by omega) (by omega) (address_le hn (by omega) le_rfl), ha,
    Nat.add_zero]

lemma wp_memcpy {src : Bytes} : wp (memcpy buf pos src n) Q X d ↔ Q (buf.put pos src n) d := by
  unfold memcpy
  rw [if_neg (by omega), Int.toNat_natCast]
  rfl

lemma wp_readBlock (hb : b < 32768) (hn : off + n ≤ 4096) (ho : off % 512 = 0) :
    wp (readBlock b buf pos off n) Q X d ↔ Q (buf.put pos (d.start (4096 * b + off)) n) d := by
  have ha := address_eq hb (show off ≤ 4096 by omega)
  unfold readBlock
  rw [wp_seq, require, if_pos (by omega), wp_pure]
  split_ifs with h
  · rw [wp_bind, Int.toNat_natCast, wp_diskRead (by omega) (by omega)
      (address_le hb (by omega) (by omega)), wp_memcpy, ha]
  · rw [wp_bind, wp_echeck, wp_diskRead (by omega) (by omega)
      (address_le hb (by omega) le_rfl), wp_memcpy, ha]

lemma wp_readWhole (hb : b < 32768) :
    wp (readBlock b buf 0 0 4096) Q X d ↔ Q (buf.put 0 (d.start (4096 * b)) 4096) d :=
  wp_readBlock (n := 4096) hb le_rfl rfl

lemma wp_writeBlock {Q : Unit → Disk → Prop} (hb : b < 32768) (hn : off + n ≤ 4096) :
    wp (writeBlock b buf off n) Q X d ↔ Q () (d.put (4096 * b + off) buf n) := by
  have ha := address_eq hb (show off ≤ 4096 by omega)
  have ha0 := address_eq hb (Nat.zero_le 4096)
  unfold writeBlock
  rw [wp_seq, require, if_pos (by omega), wp_pure]
  split_ifs with h h0
  · omega
  · rw [wp_echeck, Int.toNat_natCast, wp_diskWrite (by omega) (by omega)
      (address_le hb (by omega) (by omega)), ha]
  · rw [wp_bind, wp_echeck, wp_readWhole hb, wp_bind, wp_memcpy, wp_echeck, wp_diskWrite (by omega)
      (by omega) (address_le hb (by omega) le_rfl), ha0, Nat.add_zero, Bytes.put_put_start hn]

lemma wp_writeWhole {Q : Unit → Disk → Prop} (hb : b < 32768) :
    wp (writeBlock b buf 0 4096) Q X d ↔ Q () (d.put (4096 * b) buf 4096) :=
  wp_writeBlock (n := 4096) hb le_rfl

end Sectors

section Bitmap

/-- The blocks that can be allocated, in the order they will be. -/
def freeBlocks (d : Disk) : List ℕ := (List.range' 0 (4096 * 8)).filter fun k => !used d k

lemma mem_freeBlocks : k ∈ freeBlocks d ↔ k < 32768 ∧ used d k = false := by
  simp [freeBlocks, mem_range'_1]

lemma nodup_freeBlocks : (freeBlocks d).Nodup := List.Nodup.filter _ nodup_range'

lemma getLsbD_one_shift {j : ℕ} (hk : k < 8) : (1#8 <<< j).getLsbD k = decide (k = j) := by
  rw [BitVec.getLsbD_shiftLeft, BitVec.getLsbD_one]
  by_cases hkj : k < j
  · simp [hkj, hkj.ne]
  · simp [hk, hkj, show k - j = 0 ↔ k = j by omega]

lemma used_mark : used (mark d b) k = (used d k || decide (k = b)) := by
  unfold used mark
  by_cases h : k / 8 = b / 8
  · rw [h, update_self, BitVec.getLsbD_or, getLsbD_one_shift (by omega)]
    congr 2
    exact propext ⟨fun _ => by omega, fun _ => by omega⟩
  · rw [update_of_ne h, decide_eq_false (by rintro rfl; exact h rfl), Bool.or_false]

lemma freeBlocks_mark {l : List ℕ} (h : freeBlocks d = b :: l) : freeBlocks (mark d b) = l := by
  have hf : freeBlocks (mark d b) = (freeBlocks d).filter fun k => decide (k ≠ b) := by
    unfold freeBlocks
    rw [filter_filter]
    refine filter_congr fun k _ => ?_
    rw [used_mark, Bool.not_or, ← decide_not, Bool.and_comm]
  have hnd := nodup_freeBlocks (d := d)
  rw [h] at hnd hf
  rw [hf, filter_cons_of_neg (by simp), filter_eq_self]
  intro k hk
  simpa using fun hkb : k = b => (nodup_cons.mp hnd).1 (hkb ▸ hk)

lemma mark_away {a : ℕ} (hb : b < 32768) (ha : 4096 ≤ a) : mark d b a = d a :=
  update_of_ne (by omega) ..

lemma wp_allocBlock {l : List ℕ} {Q : ℕ → Disk → Prop} (h : freeBlocks d = b :: l) :
    wp allocBlock Q X d ↔ Q b (mark d b) := by
  have hb : b < 32768 := (mem_freeBlocks.mp (h ▸ mem_cons_self)).1
  have hs : d.start 0 = d := funext fun a => by rw [Bytes.start_apply, Nat.zero_add]
  have hfind : (range' 0 (4096 * 8)).find? (fun k => !used d k) = some b := by
    rw [← head?_filter]
    exact congrArg head? h
  have hput : d.put 0 (mark d b) 4096 = mark d b := by
    ext1 a
    unfold Bytes.put
    split_ifs with ha
    · rw [Nat.sub_zero]
    · rw [mark_away hb (by omega)]
  unfold allocBlock
  rw [wp_bind, wp_echeck, wp_diskRead (by omega) (by omega) (by decide), hs, hfind]
  show wp (do echeck (diskWrite 0 4096 (mark d b)); pure b) Q X d ↔ _
  rw [wp_bind, wp_echeck, wp_diskWrite (by omega) (by omega) (by decide), hput]
  rfl

end Bitmap

section Inodes

abbrev len (d : Disk) (n : ℕ) : ℕ := inodeLen (d.start (4096 * n))

/-- The block that holds the bytes of a file from `4096 * i` on. -/
abbrev dataBlock (d : Disk) (n i : ℕ) : ℕ := dblock (d.start (4096 * n)) i

def SameBlock (d t : Disk) (b : ℕ) : Prop := ∀ o < 4096, t (4096 * b + o) = d (4096 * b + o)

lemma SameBlock.len (h : SameBlock d t n) : len t n = len d n :=
  Bytes.word_congr fun j _ => h (8 + j) (by omega)

lemma SameBlock.dataBlock (h : SameBlock d t n) (hi : i < 256) :
    dataBlock t n i = dataBlock d n i :=
  Bytes.word_congr fun j _ => h (16 + 8 * i + j) (by omega)

lemma nblocks_eq {l : ℕ} (h : l ≤ 2 ^ 20) : nblocks l = (l + 4095) / 4096 := by
  unfold nblocks
  omega

lemma nblocks_le {l : ℕ} (h : l ≤ 2 ^ 20) : nblocks l ≤ 256 := by
  rw [nblocks_eq h]
  omega

lemma nblocks_mono {l m : ℕ} (h : l ≤ m) (hm : m ≤ 2 ^ 20) : nblocks l ≤ nblocks m := by
  rw [nblocks_eq hm, nblocks_eq (h.trans hm)]
  omega

variable {ino : Bytes}

lemma wp_growLoop (hk : k ≤ (freeBlocks d).length) (hi : i + k ≤ 256) :
    wp (growLoop k i ino) (fun r t => (∀ a, 4096 ≤ a → t a = d a) ∧
      freeBlocks t = (freeBlocks d).drop k ∧ (∀ j, j < i → dblock r j = dblock ino j) ∧
      ∀ j, i ≤ j → j < i + k → (freeBlocks d)[j - i]? = some (dblock r j)) .never d := by
  induction k generalizing d i ino with
  | zero => exact ⟨fun _ _ => rfl, rfl, fun _ _ => rfl, fun j h h' => absurd h' (by omega)⟩
  | succ k ih =>
    obtain ⟨b, l, hbl⟩ := exists_cons_of_length_pos (by omega : 0 < (freeBlocks d).length)
    have hb : b < 32768 := (mem_freeBlocks.mp (hbl ▸ mem_cons_self)).1
    rw [hbl, length_cons] at hk
    unfold growLoop
    rw [wp_bind, wp_echeck, wp_allocBlock hbl, if_pos (by omega)]
    have hl := freeBlocks_mark hbl
    refine wp_post (ih (by rw [hl]; omega) (by omega)) fun r t ⟨hd, hf, hold, hnew⟩ =>
      ⟨fun a ha => ?_, ?_, fun j hj => ?_, fun j h1 h2 => ?_⟩
    · rw [hd a ha, mark_away hb ha]
    · rw [hf, hl, hbl, drop_succ_cons]
    · rw [hold j (by omega)]
      exact Bytes.word_putWord_of_ne (by omega)
    · rcases Nat.eq_or_lt_of_le h1 with rfl | h1
      · rw [hold i (by omega), hbl, Nat.sub_self]
        exact congrArg some (Bytes.word_putWord (by omega)).symm
      · rw [← hnew j h1 (by omega), hl, hbl, show j - i = j - (i + 1) + 1 by omega]
        rfl

variable {newSize : ℕ}

lemma wp_grow (hle : inodeLen ino ≤ newSize) (h20 : newSize ≤ 2 ^ 20)
    (hk : nblocks newSize - nblocks (inodeLen ino) ≤ (freeBlocks d).length) :
    wp (grow ino newSize) (fun r t => (∀ a, 4096 ≤ a → t a = d a) ∧
      freeBlocks t = (freeBlocks d).drop (nblocks newSize - nblocks (inodeLen ino)) ∧
      (∀ j, j < nblocks (inodeLen ino) → dblock r j = dblock ino j) ∧
      ∀ j, nblocks (inodeLen ino) ≤ j → j < nblocks newSize →
        (freeBlocks d)[j - nblocks (inodeLen ino)]? = some (dblock r j)) .never d := by
  have hmono := nblocks_mono hle h20
  have h256 := nblocks_le h20
  unfold grow
  split_ifs with hlt
  · refine wp_post (wp_growLoop hk (by omega)) fun r t ⟨hd, hf, hold, hnew⟩ =>
      ⟨hd, hf, hold, fun j h h' => hnew j h (by omega)⟩
  · obtain rfl : newSize = inodeLen ino := by omega
    exact ⟨fun _ _ => rfl, by rw [Nat.sub_self, drop_zero], fun _ _ => rfl,
      fun j h h' => absurd h' (by omega)⟩

lemma wp_growLoop_gone (hi : i ≤ 256) (hk : 256 < i + k) (hf : 256 < i + (freeBlocks d).length) :
    wp (growLoop k i ino) (fun _ _ => False) ⟨fun _ _ => False, fun w _ => w = .gone⟩ d := by
  induction k generalizing d i ino with
  | zero => omega
  | succ k ih =>
    obtain ⟨b, l, hbl⟩ := exists_cons_of_length_pos (by omega : 0 < (freeBlocks d).length)
    unfold growLoop
    rw [wp_bind, wp_echeck, wp_allocBlock hbl]
    split_ifs with h
    · rw [hbl, length_cons] at hf
      exact ih (by omega) (by omega) (by rw [freeBlocks_mark hbl]; omega)
    · exact rfl

/-- What growing the file `n` does to the disk: the superblock and the inode change. -/
structure Grown (n newSize : ℕ) (d t : Disk) : Prop where
  len : len t n = newSize
  old : ∀ i < nblocks (Dbfs.len d n), dataBlock t n i = dataBlock d n i
  added : ∀ i, nblocks (Dbfs.len d n) ≤ i → i < nblocks newSize →
    (freeBlocks d)[i - nblocks (Dbfs.len d n)]? = some (dataBlock t n i)
  free : freeBlocks t = (freeBlocks d).drop (nblocks newSize - nblocks (Dbfs.len d n))
  away : ∀ a, 4096 ≤ a → a / 4096 ≠ n → t a = d a

lemma Grown.refl : Grown n (Dbfs.len d n) d d where
  len := rfl
  old _ _ := rfl
  added i h h' := absurd h' (by omega)
  free := by rw [Nat.sub_self, drop_zero]
  away _ _ _ := rfl

/-- There is room for a file of a size: the inode can hold it and the blocks are free. -/
def Room (d : Disk) (n newSize : ℕ) : Prop :=
  newSize ≤ 2 ^ 20 ∧ nblocks newSize - nblocks (len d n) ≤ (freeBlocks d).length

lemma wp_truncate (hn : 0 < n) (hn' : n < 32768) (hle : len d n ≤ newSize) (hr : Room d n newSize) :
    wp (truncate n newSize) (fun _ t => Grown n newSize d t) .never d := by
  have h20 := hr.1
  have h256 := nblocks_le h20
  have hmono := nblocks_mono hle h20
  unfold truncate
  rw [wp_bind, wp_readInode hn', if_neg hle.not_gt, wp_bind]
  refine wp_post (wp_grow hle h20 hr.2) fun r t ⟨hd, hf, hold, hnew⟩ => ?_
  rw [wp_writeWhole hn']
  have hword : ∀ k, k + 8 ≤ 4096 →
      ((t.put (4096 * n) (r.putWord 8 newSize) 4096).start (4096 * n)).word k =
        (r.putWord 8 newSize).word k := fun k hk =>
    Bytes.word_start.trans (Bytes.word_put_within hk)
  have hdb : ∀ i < 256, dataBlock (t.put (4096 * n) (r.putWord 8 newSize) 4096) n i = dblock r i :=
    fun i hi => (hword _ (by omega)).trans (Bytes.word_putWord_of_ne (by omega))
  refine ⟨(hword 8 (by omega)).trans (Bytes.word_putWord (by omega)), fun i hi => ?_,
    fun i h h' => ?_, ?_, fun a ha hna => ?_⟩
  · rw [hdb i (by omega), hold i hi]
  · rw [hdb i (by omega), hnew i h h']
  · rw [← hf]
    refine filter_congr fun k hk => ?_
    have := mem_range'_1.mp hk
    unfold used
    rw [Bytes.put_away (by omega)]
  · rw [Bytes.put_away (by omega), hd a ha]

end Inodes

section Uses

/-- What a block is used for: as the superblock, as the inode of a file or for its data. -/
inductive Use
  | superblock
  | inode (n : ℕ)
  | data (n i : ℕ)

variable {files : List ℕ} {u v : Use}

def Use.block (d : Disk) : Use → ℕ
  | .superblock => 0
  | .inode n => n
  | .data n i => dataBlock d n i

def Use.On (d : Disk) (files : List ℕ) : Use → Prop
  | .superblock => True
  | .inode n => n ∈ files
  | .data n i => n ∈ files ∧ i < nblocks (len d n)

/-- No inode overflows, no block has two uses, and every block that has one is marked. -/
structure Sound (d : Disk) (files : List ℕ) : Prop where
  fits : ∀ n ∈ files, len d n ≤ 4096 * 256
  one : ∀ u v : Use, u.On d files → v.On d files → u.block d = v.block d → u = v
  marked : ∀ u : Use, u.On d files → u.block d < 32768 ∧ used d (u.block d) = true

namespace Sound

lemma nblocks_le (hs : Sound d files) (hn : n ∈ files) : nblocks (len d n) ≤ 256 :=
  Dbfs.nblocks_le (hs.fits n hn)

lemma lt (hs : Sound d files) (hn : n ∈ files) : n < 32768 := (hs.marked (.inode n) hn).1

lemma inode_pos (hs : Sound d files) (hn : n ∈ files) : 0 < n := by
  rcases Nat.eq_zero_or_pos n with rfl | h
  · exact nomatch hs.one .superblock (.inode 0) trivial hn rfl
  · exact h

lemma not_free (hs : Sound d files) (hu : u.On d files) : u.block d ∉ freeBlocks d := fun h => by
  have := (mem_freeBlocks.mp h).2
  rw [(hs.marked u hu).2] at this
  exact nomatch this

lemma data_ne (hs : Sound d files) (hn : n ∈ files) (hi : i < nblocks (len d n)) (hu : u.On d files)
    (hne : u ≠ .data n i) : u.block d ≠ dataBlock d n i := fun h =>
  hne (hs.one u (.data n i) hu ⟨hn, hi⟩ h)

end Sound

lemma used_congr (h : SameBlock d t 0) (hk : k < 32768) : used t k = used d k := by
  have := h (k / 8) (by omega)
  rw [Nat.mul_zero, Nat.zero_add] at this
  rw [used, used, this]

lemma freeBlocks_congr (h : SameBlock d t 0) : freeBlocks t = freeBlocks d :=
  filter_congr fun k hk => by rw [used_congr h (by simpa using mem_range'_1.mp hk)]

lemma Use.same (h : ∀ m ∈ files, SameBlock d t m) (hf : ∀ m ∈ files, len d m ≤ 4096 * 256)
    (hu : u.On t files) : u.On d files ∧ u.block t = u.block d := by
  cases u with
  | superblock => exact ⟨trivial, rfl⟩
  | inode m => exact ⟨hu, rfl⟩
  | data m i =>
    obtain ⟨hm, hi⟩ := hu
    rw [(h m hm).len] at hi
    exact ⟨⟨hm, hi⟩, (h m hm).dataBlock (hi.trans_le (nblocks_le (hf m hm)))⟩

lemma Sound.same (hs : Sound d files) (h : ∀ m ∈ files, SameBlock d t m)
    (h0 : ∀ k < 32768, used d k = true → used t k = true) : Sound t files where
  fits m hm := by
    rw [(h m hm).len]
    exact hs.fits m hm
  one u v hu hv huv := by
    obtain ⟨hu, hub⟩ := Use.same h hs.fits hu
    obtain ⟨hv, hvb⟩ := Use.same h hs.fits hv
    exact hs.one u v hu hv (by rw [← hub, ← hvb, huv])
  marked u hu := by
    obtain ⟨hu, hub⟩ := Use.same h hs.fits hu
    obtain ⟨hlt, hm⟩ := hs.marked u hu
    rw [hub]
    exact ⟨hlt, h0 _ hlt hm⟩

section Growth

variable {m : ℕ}

lemma Grown.sameBlock (g : Grown n m d t) (hb : b ≠ 0) (hne : b ≠ n) : SameBlock d t b :=
  fun _ _ => g.away _ (by omega) (by omega)

lemma Grown.use (g : Grown n m d t) (hs : Sound d files) (hu : u.On t files) :
    (u.On d files ∧ u.block t = u.block d) ∨
      ∃ i < nblocks m - nblocks (Dbfs.len d n), u = .data n (nblocks (Dbfs.len d n) + i) ∧
        (freeBlocks d)[i]? = some (u.block t) := by
  cases u with
  | superblock => exact .inl ⟨trivial, rfl⟩
  | inode k => exact .inl ⟨hu, rfl⟩
  | data k i =>
    obtain ⟨hk, hi⟩ := hu
    by_cases hkn : k = n
    · subst hkn
      rw [g.len] at hi
      rcases Nat.lt_or_ge i (nblocks (Dbfs.len d k)) with h | h
      · exact .inl ⟨⟨hk, h⟩, g.old i h⟩
      · refine .inr ⟨i - nblocks (Dbfs.len d k), by omega, ?_, g.added i h hi⟩
        rw [Nat.add_sub_cancel' h]
    · have hsame := g.sameBlock (hs.inode_pos hk).ne' hkn
      rw [hsame.len] at hi
      exact .inl ⟨⟨hk, hi⟩, hsame.dataBlock (hi.trans_le (hs.nblocks_le hk))⟩

lemma Sound.grown (hs : Sound d files) (hm : m ≤ 4096 * 256) (g : Grown n m d t) :
    Sound t files where
  fits k hk := by
    by_cases hkn : k = n
    · rw [hkn, g.len]
      exact hm
    · rw [(g.sameBlock (hs.inode_pos hk).ne' hkn).len]
      exact hs.fits k hk
  one u v hu hv huv := by
    rcases g.use hs hu with ⟨hu, hub⟩ | ⟨i, _, rfl, hi⟩ <;>
      rcases g.use hs hv with ⟨hv, hvb⟩ | ⟨j, _, rfl, hj⟩
    · exact hs.one u v hu hv (by rw [← hub, ← hvb, huv])
    · exact absurd (List.mem_of_getElem? hj) (by rw [← huv, hub]; exact hs.not_free hu)
    · exact absurd (List.mem_of_getElem? hi) (by rw [huv, hvb]; exact hs.not_free hv)
    · rw [huv, ← hj] at hi
      have hlt : j < (freeBlocks d).length := (List.getElem?_eq_some_iff.mp hj).1
      rw [(List.getElem?_inj hlt nodup_freeBlocks).mp hi.symm]
  marked u hu := by
    have hmark : u.block t < 32768 ∧ u.block t ∉ freeBlocks t := by
      rw [g.free]
      rcases g.use hs hu with ⟨hu, hub⟩ | ⟨i, hlt, rfl, hi⟩
      · rw [hub]
        exact ⟨(hs.marked u hu).1, fun h => hs.not_free hu (List.mem_of_mem_drop h)⟩
      · refine ⟨(mem_freeBlocks.mp (List.mem_of_getElem? hi)).1, fun h => ?_⟩
        exact List.disjoint_take_drop nodup_freeBlocks le_rfl (List.mem_take_iff_getElem.mpr (by
            obtain ⟨h1, h2⟩ := List.getElem?_eq_some_iff.mp hi
            exact ⟨i, by omega, h2⟩)) h
    refine ⟨hmark.1, ?_⟩
    by_contra h
    exact hmark.2 (mem_freeBlocks.mpr ⟨hmark.1, by simpa using h⟩)

end Growth

end Uses

end Corey.Fs.Dbfs
