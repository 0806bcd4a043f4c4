import Corey.Fs.DbfsBlocks

/-!
Writes to the files of the disk file system, and runs of its operations.
-/

namespace Corey.Fs.Dbfs

open Corey.Comp List

variable {d t w : Disk} {X : Exits Errno Disk} {n i k pos off fin b l : ℕ} {buf ino : Bytes}
  {files : List ℕ}

def byteAt (d : Disk) (n p : ℕ) : Byte := d (4096 * dataBlock d n (p / 4096) + p % 4096)

section Loop

variable {β : Type} {op : ℕ → ℕ → ℕ → ℤ → β → DM β} {r : β} {Q : β → Disk → Prop}

lemma wp_doBlocks_succ {lo hi : ℕ} (hlo : lo = max off (4096 * i))
    (hhi : hi = min fin (4096 * (i + 1))) (hi256 : i < 256) (hstart : off / 4096 ≤ i)
    (hle : lo ≤ hi) :
    wp (doBlocks op ino off fin (k + 1) i pos r) Q X d ↔
      wp (op (dblock ino i) pos (lo - 4096 * i) (hi - lo : ℕ) r)
        (fun r t => wp (doBlocks op ino off fin k (i + 1) (pos + (hi - lo)) r) Q X t)
        ⟨fun _ t => X.stop .panic t, X.stop⟩ d := by
  have hoff : (if i = off / 4096 then off % 4096 else 0) = lo - 4096 * i := by
    split_ifs <;> omega
  have hlen : ((min (fin - i * 4096) 4096 : ℕ) : ℤ) - ((lo - 4096 * i : ℕ) : ℤ) =
      ((hi - lo : ℕ) : ℤ) := by omega
  rw [doBlocks]
  simp only [hoff, hlen, if_pos hi256, wp_bind, wp_echeck, Int.toNat_natCast]

end Loop

section Writing

variable {N m p : ℕ}

lemma wp_writeLoop (hN : N ≤ 256) (hlt : ∀ j < N, dblock ino j < 32768)
    (hinj : ∀ j < N, ∀ j' < N, dblock ino j = dblock ino j' → j = j')
    (hfin : fin ≤ 4096 * N) (hoff : 0 < k → off ≤ fin) (hk : i + k = max i (nblocks fin))
    (hstart : off / 4096 ≤ i) (hpos : 0 < k → pos + off = max off (4096 * i)) :
    wp (doBlocks (fun block pos blkoff blklen _ =>
        writeBlock block (buf.start pos) blkoff blklen) ino off fin k i pos ())
      (fun _ t => (∀ p < 4096 * N, t (4096 * dblock ino (p / 4096) + p % 4096) =
          if 4096 * i ≤ p ∧ off ≤ p ∧ p < fin then buf (p - off)
          else d (4096 * dblock ino (p / 4096) + p % 4096)) ∧
        ∀ a, (∀ j < N, a / 4096 ≠ dblock ino j) → t a = d a) .never d := by
  have hnb : nblocks fin = (fin + 4095) / 4096 := by
    unfold nblocks
    omega
  induction k generalizing d i pos with
  | zero => exact ⟨fun p hp => by rw [if_neg (by omega)], fun _ _ => rfl⟩
  | succ k ih =>
    have hoff := hoff (by omega)
    have hpos := hpos (by omega)
    rw [wp_doBlocks_succ rfl rfl (by omega) hstart (by omega)]
    refine (wp_writeBlock (hlt i (by omega)) (by omega)).mpr ?_
    refine wp_post (ih (fun _ => hoff) (by omega) (by omega) (by omega)) fun _ t ⟨hin, hout⟩ =>
      ⟨fun p hp => ?_, fun a ha => ?_⟩
    · rw [hin p hp]
      have hne : p / 4096 ≠ i → dblock ino (p / 4096) ≠ dblock ino i := fun h e =>
        h (hinj _ (by omega) i (by omega) e)
      by_cases h1 : 4096 * (i + 1) ≤ p ∧ off ≤ p ∧ p < fin
      · rw [if_pos h1, if_pos (by omega)]
      · rw [if_neg h1]
        by_cases h2 : 4096 * i ≤ p ∧ off ≤ p ∧ p < fin
        · -- the byte is in the piece that this round writes
          obtain rfl : i = p / 4096 := by omega
          rw [if_pos h2, Bytes.put_within (by omega) (by omega), Bytes.start_apply]
          congr 1
          omega
        · rw [if_neg h2, Bytes.put_away]
          by_cases hpi : p / 4096 = i
          · subst hpi
            omega
          · have := hne hpi
            omega
    · rw [hout a ha, Bytes.put_away]
      have := ha i (by omega)
      omega

/-- What a write between `off` and `fin` does to a file that is long enough. -/
structure Wrote (n off fin : ℕ) (buf : Bytes) (d t : Disk) : Prop where
  bytes : ∀ p < 4096 * nblocks (len d n), t (4096 * dataBlock d n (p / 4096) + p % 4096) =
    if off ≤ p ∧ p < fin then buf (p - off) else byteAt d n p
  away : ∀ a, (∀ i < nblocks (len d n), a / 4096 ≠ dataBlock d n i) → t a = d a

lemma Wrote.sameBlock (h : Wrote n off fin buf d t)
    (hb : ∀ i < nblocks (len d n), b ≠ dataBlock d n i) : SameBlock d t b := fun o ho =>
  h.away _ fun i hi => by
    rw [show (4096 * b + o) / 4096 = b by omega]
    exact hb i hi

lemma Wrote.sameInode (h : Wrote n off fin buf d t) (hs : Sound d files) (hn : n ∈ files)
    (hm : m ∈ files) : SameBlock d t m :=
  h.sameBlock fun _ hi => hs.data_ne (u := .inode m) hn hi hm (by simp)

lemma Wrote.sameSuperblock (h : Wrote n off fin buf d t) (hs : Sound d files) (hn : n ∈ files) :
    SameBlock d t 0 :=
  h.sameBlock fun _ hi => hs.data_ne (u := .superblock) hn hi trivial (by simp)

lemma Sound.wrote (hs : Sound d files) (hn : n ∈ files) (h : Wrote n off fin buf d t) :
    Sound t files :=
  hs.same (fun _ hm => h.sameInode hs hn hm) fun k hk hu => by
    rwa [used_congr (h.sameSuperblock hs hn) hk]

lemma Wrote.byteAt (h : Wrote n off fin buf d t) (hs : Sound d files) (hn : n ∈ files)
    (hp : p < 4096 * nblocks (len d n)) :
    byteAt t n p = if off ≤ p ∧ p < fin then buf (p - off) else byteAt d n p := by
  rw [← h.bytes p hp, Dbfs.byteAt, (h.sameInode hs hn hn).dataBlock]
  have := hs.nblocks_le hn
  omega

lemma lt_nblocks (hp : p < l) (hl : l ≤ 4096 * 256) : p < 4096 * nblocks l := by
  unfold nblocks
  omega

/-- The rest of the disk: a file keeps its length and its bytes. -/
def Intact (d t : Disk) (m : ℕ) : Prop :=
  len t m = len d m ∧ ∀ p < len d m, byteAt t m p = byteAt d m p

lemma Intact.trans (h : Intact d w m) (h' : Intact w t m) : Intact d t m :=
  ⟨h'.1.trans h.1, fun p hp => (h'.2 p (by rwa [h.1])).trans (h.2 p hp)⟩

lemma intact_of_same (hs : Sound d files) (hm : m ∈ files) (h : SameBlock d t m)
    (hd : ∀ i < nblocks (len d m), SameBlock d t (dataBlock d m i)) : Intact d t m := by
  refine ⟨h.len, fun p hp => ?_⟩
  have hb := lt_nblocks hp (hs.fits m hm)
  have := hs.nblocks_le hm
  unfold byteAt
  rw [h.dataBlock (by omega)]
  exact hd (p / 4096) (by omega) _ (Nat.mod_lt _ (by omega))

lemma Grown.intact (g : Grown n l d t) (hs : Sound d files) (hn : n ∈ files)
    (hm : m ∈ files) (hne : m ≠ n) : Intact d t m := by
  refine intact_of_same hs hm (g.sameBlock (hs.inode_pos hm).ne' hne) fun i hi =>
    g.sameBlock ?_ ?_
  · exact (hs.data_ne (u := .superblock) hm hi trivial (by simp)).symm
  · exact (hs.data_ne (u := .inode n) hm hi hn (by simp)).symm

lemma Grown.byteAt (g : Grown n l d t) (hs : Sound d files) (hn : n ∈ files)
    (hp : p < 4096 * nblocks (Dbfs.len d n)) : byteAt t n p = byteAt d n p := by
  have hi : p / 4096 < nblocks (Dbfs.len d n) := by omega
  unfold Dbfs.byteAt
  rw [g.old _ hi]
  refine g.sameBlock ?_ ?_ _ (Nat.mod_lt _ (by omega))
  · exact (hs.data_ne (u := .superblock) hn hi trivial (by simp)).symm
  · exact (hs.data_ne (u := .inode n) hn hi hn (by simp)).symm

lemma Wrote.intact (h : Wrote n off fin buf d t) (hs : Sound d files) (hn : n ∈ files)
    (hm : m ∈ files) (hne : m ≠ n) : Intact d t m := by
  refine intact_of_same hs hm (h.sameInode hs hn hm) fun i hi => h.sameBlock fun j hj => ?_
  exact hs.data_ne (u := .data m i) hn hj ⟨hm, hi⟩ (by simp [hne])

end Writing

section Operations

lemma wp_extend (hs : Sound d files) (hn : n ∈ files) (hr : Room d n fin) :
    wp (extend n fin) (fun r t => r = t.start (4096 * n) ∧ Grown n (max (len d n) fin) d t)
      .never d := by
  unfold extend
  rw [wp_bind, wp_readInode (hs.lt hn)]
  split_ifs with h
  · rw [wp_bind, wp_echeck, max_eq_right (le_of_lt h)]
    refine wp_of_never (wp_truncate (hs.inode_pos hn) (hs.lt hn) (le_of_lt h) hr) fun _ t g => ?_
    exact (wp_readInode (hs.lt hn)).mpr ⟨rfl, g⟩
  · rw [max_eq_left (not_lt.mp h)]
    exact ⟨rfl, Grown.refl⟩

/-- A write that finds room: the file grows if it is too short, then its bytes are written. A
sum `off + count` that wraps around must not end in the block it starts in. -/
lemma wp_pwrite {count : ℕ} (hs : Sound d files) (hn : n ∈ files)
    (hfin : fin = (off + count) % 2 ^ 64) (hr : Room d n fin)
    (hoff : off ≤ fin ∨ nblocks fin ≤ off / 4096) :
    wp (pwrite n buf count off) (fun r t => r = count ∧
      ∃ w, Grown n (max (len d n) fin) d w ∧ Wrote n off fin buf w t) .never d := by
  unfold pwrite
  rw [wp_bind, ← hfin]
  refine wp_post (wp_extend hs hn hr) fun r w ⟨hr', g⟩ => ?_
  subst hr'
  have h20 := hr.1
  have hw : Sound w files := hs.grown (max_le (hs.fits n hn) h20) g
  have hlen : fin ≤ 4096 * nblocks (len w n) := by
    rw [g.len]
    have := hs.fits n hn
    unfold nblocks
    omega
  rw [wp_bind]
  refine wp_post (wp_writeLoop (hw.nblocks_le hn) (fun j hj => (hw.marked (.data n j) ⟨hn, hj⟩).1)
    (fun j hj j' hj' e => ?_) hlen (by omega) (by omega) le_rfl (by omega)) fun _ t ⟨hin, hout⟩ =>
      ⟨rfl, w, g, ⟨fun p hp => ?_, hout⟩⟩
  · have := hw.one (.data n j) (.data n j') ⟨hn, hj⟩ ⟨hn, hj'⟩ e
    injection this
  · rw [hin p hp]
    by_cases h : off ≤ p ∧ p < fin
    · rw [if_pos (by omega), if_pos h]
    · rw [if_neg (by omega), if_neg h, byteAt]

/-- What the creation of a file with inode `b` does. -/
structure Created (fn : List Byte) (b : ℕ) (files : List ℕ) (d t : Disk) : Prop where
  sound : Sound t (b :: files)
  fresh : b ∉ files
  empty : len t b = 0
  dir : len t 1 = len d 1 + 72
  entry : ∀ p < len d 1 + 72,
    byteAt t 1 p = if len d 1 ≤ p then dent fn b (p - len d 1) else byteAt d 1 p
  intact : ∀ m ∈ files, m ≠ 1 → Intact d t m
  free : freeBlocks t =
    (freeBlocks d).drop (1 + (nblocks (len d 1 + 72) - nblocks (len d 1)))

/-- There is room for another entry and for another inode. -/
def RoomToCreate (d : Disk) : Prop :=
  len d 1 + 72 ≤ 2 ^ 20 ∧
    1 + (nblocks (len d 1 + 72) - nblocks (len d 1)) ≤ (freeBlocks d).length

lemma sameBlock_mark {c : ℕ} (hb : b < 32768) (hc : c ≠ 0) : SameBlock d (mark d b) c :=
  fun _ _ => mark_away hb (by omega)

lemma Sound.mark (hs : Sound d files) (hb : b < 32768) : Sound (mark d b) files :=
  hs.same (fun _ hm => sameBlock_mark hb (hs.inode_pos hm).ne') fun k _ hk => by
    rw [used_mark, hk, Bool.true_or]

lemma Sound.cons (hs : Sound t files) (hb : b < 32768) (hused : used t b = true)
    (hne : ∀ u : Use, u.On t files → u.block t ≠ b) (hlen : len t b = 0) :
    Sound t (b :: files) := by
  have hon : ∀ u : Use, u.On t (b :: files) → u = .inode b ∨ u.On t files := by
    intro u hu
    cases u with
    | superblock => exact .inr trivial
    | inode m => exact (mem_cons.mp hu).imp (congrArg Use.inode) id
    | data m i =>
      obtain ⟨hm, hi⟩ := hu
      rcases mem_cons.mp hm with rfl | hm
      · rw [hlen] at hi
        exact absurd hi (by decide +revert)
      · exact .inr ⟨hm, hi⟩
  refine ⟨fun m hm => ?_, fun u v hu hv huv => ?_, fun u hu => ?_⟩
  · rcases mem_cons.mp hm with rfl | hm
    · omega
    · exact hs.fits m hm
  · rcases hon u hu with rfl | hu <;> rcases hon v hv with rfl | hv
    · rfl
    · exact absurd huv.symm (hne v hv)
    · exact absurd huv (hne u hu)
    · exact hs.one u v hu hv huv
  · rcases hon u hu with rfl | hu
    · exact ⟨hb, hused⟩
    · exact hs.marked u hu

lemma Grown.avoids (g : Grown n l d t) (hs : Sound d files) (hb : b ∉ freeBlocks d)
    (hne : ∀ u : Use, u.On d files → u.block d ≠ b) (u : Use) (hu : u.On t files) :
    u.block t ≠ b := by
  rcases g.use hs hu with ⟨hu, he⟩ | ⟨i, _, _, hi⟩
  · rw [he]
    exact hne u hu
  · rintro rfl
    exact hb (mem_of_getElem? hi)

lemma wp_pwrite_entry {fn : List Byte} (hs : Sound d files) (h1 : 1 ∈ files)
    (hr : Room d 1 (len d 1 + 72)) (hl : l = len d 1) (hb : b ∉ freeBlocks d) (hb' : b < 32768)
    (hne : ∀ u : Use, u.On d files → u.block d ≠ b) :
    wp (pwrite 1 (dent fn b) 72 l) (fun _ t => Sound t files ∧
      (∀ u : Use, u.On t files → u.block t ≠ b) ∧ used t b = true ∧ len t 1 = len d 1 + 72 ∧
      (∀ p < len d 1 + 72,
        byteAt t 1 p = if len d 1 ≤ p then dent fn b (p - len d 1) else byteAt d 1 p) ∧
      (∀ m ∈ files, m ≠ 1 → Intact d t m) ∧
      freeBlocks t = (freeBlocks d).drop (nblocks (len d 1 + 72) -
        nblocks (len d 1))) .never d := by
  rw [hl]
  have hfit := hs.fits 1 h1
  have h20 := hr.1
  refine wp_post (wp_pwrite hs h1 (Nat.mod_eq_of_lt (by omega)).symm hr (by omega))
    fun _ t ⟨_, w, g, wr⟩ => ?_
  rw [max_eq_right (by omega)] at g
  have hw : Sound w files := hs.grown h20 g
  have h0 := wr.sameSuperblock hw h1
  have hb'' : b ∉ freeBlocks w := by
    rw [g.free]
    exact fun h => hb (mem_of_mem_drop h)
  refine ⟨hw.wrote h1 wr, fun u hu => ?_, ?_, ?_, fun p hp => ?_, fun m hm hne => ?_, ?_⟩
  · obtain ⟨hu, he⟩ := Use.same (fun m hm => wr.sameInode hw h1 hm) hw.fits hu
    rw [he]
    exact g.avoids hs hb hne u hu
  · rw [used_congr h0 hb']
    by_contra h
    exact hb'' (mem_freeBlocks.mpr ⟨hb', by simpa using h⟩)
  · rw [(wr.sameInode hw h1 h1).len, g.len]
  · rw [wr.byteAt hw h1 (by rw [g.len]; exact lt_nblocks hp h20)]
    by_cases h : len d 1 ≤ p
    · rw [if_pos ⟨h, hp⟩, if_pos h]
    · rw [if_neg (by omega), if_neg h, g.byteAt hs h1 (lt_nblocks (by omega) hfit)]
  · exact (g.intact hs h1 hm hne).trans (wr.intact hw h1 hm hne)
  · rw [freeBlocks_congr h0, g.free]

lemma wp_create (fn : List Byte) (junk : Bytes) (hs : Sound d files) (h1 : 1 ∈ files)
    (hr : RoomToCreate d) :
    wp (create 1 fn junk) (fun b t => Created fn b files d t) .never d := by
  obtain ⟨h20, hfr⟩ := hr
  obtain ⟨b, l, hbl⟩ := exists_cons_of_length_pos (by omega : 0 < (freeBlocks d).length)
  have hb : b < 32768 := (mem_freeBlocks.mp (hbl ▸ mem_cons_self)).1
  have hsame : ∀ c, c ≠ 0 → SameBlock d (mark d b) c := fun c hc => sameBlock_mark hb hc
  have hs1 := hs.mark hb
  have hlen : len (mark d b) 1 = len d 1 := (hsame 1 (by omega)).len
  have hl := freeBlocks_mark hbl
  have hbl' : b ∉ l := (nodup_cons.mp (hbl ▸ nodup_freeBlocks)).1
  have hne : ∀ u : Use, u.On (mark d b) files → u.block (mark d b) ≠ b := by
    intro u hu hub
    obtain ⟨hu, he⟩ := Use.same (fun m hm => hsame m (hs.inode_pos hm).ne') hs.fits hu
    refine hs.not_free hu ?_
    rw [← he, hub, hbl]
    exact mem_cons_self
  have hint : ∀ m ∈ files, Intact d (mark d b) m := fun m hm =>
    intact_of_same hs hm (hsame m (hs.inode_pos hm).ne') fun i hi =>
      hsame _ fun h => by simpa using hs.one (.data m i) .superblock ⟨hm, hi⟩ trivial h
  rw [hbl, length_cons] at hfr
  unfold create
  rw [wp_bind, wp_readInode (by omega), wp_bind, wp_attempt, wp_allocBlock hbl]
  show wp (do
    let _ ← echeck (pwrite 1 (dent fn b) 72 (len d 1))
    writeBlock b (junk.putWord 8 0) 0 4096
    return b) _ _ _
  rw [wp_bind, wp_echeck]
  refine wp_of_never (wp_pwrite_entry hs1 h1 ⟨by omega, by rw [hl, hlen]; omega⟩ hlen.symm
    (by rw [hl]; exact hbl') hb hne) fun _ t ⟨ht, hta, htu, htl, hte, hti, htf⟩ => ?_
  rw [wp_bind, wp_writeWhole hb, wp_pure]
  -- the last write is to the block of the new inode alone
  have hlast : ∀ c, c ≠ b → SameBlock t (t.put (4096 * b) (junk.putWord 8 0) 4096) c :=
    fun c hc o _ => Bytes.put_away (by omega)
  have h0b : 0 ≠ b := hta .superblock trivial
  have hmb : ∀ m ∈ files, m ≠ b := fun m hm => hta (.inode m) hm
  have hti' : ∀ m ∈ files, Intact t (t.put (4096 * b) (junk.putWord 8 0) 4096) m := fun m hm =>
    intact_of_same ht hm (hlast m (hmb m hm)) fun i hi => hlast _ (hta (.data m i) ⟨hm, hi⟩)
  have hempty : len (t.put (4096 * b) (junk.putWord 8 0) 4096) b = 0 :=
    (Bytes.word_start.trans (Bytes.word_put_within (by omega))).trans
      (Bytes.word_putWord (by omega))
  have ht' := ht.same (fun m hm => hlast m (hmb m hm)) fun k hk hu =>
    (used_congr (hlast 0 h0b) hk).trans hu
  refine ⟨ht'.cons hb ((used_congr (hlast 0 h0b) hb).trans htu) (fun u hu => ?_) hempty,
    fun h => hmb b h rfl, hempty, ?_, fun p hp => ?_, fun m hm hm1 => ?_, ?_⟩
  · obtain ⟨hu, he⟩ := Use.same (fun m hm => hlast m (hmb m hm)) ht.fits hu
    rw [he]
    exact hta u hu
  · rw [(hti' 1 h1).1, htl, hlen]
  · rw [← hlen] at hp
    rw [(hti' 1 h1).2 p (by rw [htl]; exact hp), hte p hp, hlen]
    split_ifs with h
    · rfl
    · exact (hint 1 h1).2 p (not_le.mp h)
  · exact ((hint m hm).trans (hti m hm hm1)).trans (hti' m hm)
  · rw [freeBlocks_congr (hlast 0 h0b), htf, hl, hlen, hbl, Nat.add_comm 1, drop_succ_cons]

lemma truncate_lt {newSize : ℕ} (hs : Sound d files) (hn : n ∈ files) (h : newSize < len d n) :
    truncate n newSize d = (.err .inval, d) := by
  apply eq_err_of_wp
  unfold truncate
  rw [wp_bind, wp_readInode (hs.lt hn), if_pos h]
  exact ⟨rfl, rfl⟩

lemma used_three (h0 : ∀ o < 4096, t o = if o = 0 then 3 else 0) (hk : k < 32768) :
    used t k = decide (k < 2) := by
  have hbit : ∀ j < 8, (3 : Byte).getLsbD j = decide (j < 2) := by decide
  unfold used
  rw [h0 _ (by omega)]
  split_ifs with h
  · rw [hbit _ (by omega)]
    congr 1
    exact propext ⟨fun _ => by omega, fun _ => by omega⟩
  · rw [decide_eq_false (by omega)]
    exact BitVec.getLsbD_zero

lemma wp_init (junk : Bytes) :
    wp (init junk) (fun _ t => Sound t [1] ∧ len t 1 = 0 ∧ freeBlocks t = range' 2 32766)
      .never d := by
  unfold init
  rw [wp_bind, wp_echeck, wp_diskWrite (by omega) (by omega) (by decide), wp_writeWhole (by omega)]
  set t := (d.put 0 (fun k => if k = 0 then 3 else 0) 4096).put (4096 * 1) (junk.putWord 8 0)
    4096 with ht
  have h0 : ∀ o < 4096, t o = if o = 0 then 3 else 0 := fun o ho => by
    rw [ht, Bytes.put_away (by omega), Bytes.put_within (by omega) (by omega), Nat.sub_zero]
  have hlen : len t 1 = 0 := (Bytes.word_start.trans (Bytes.word_put_within (by omega))).trans
      (Bytes.word_putWord (by omega))
  have hnone : ∀ u : Use, u.On t [] → u = .superblock := fun u hu => by
    cases u with
    | superblock => rfl
    | inode m => exact nomatch hu
    | data m i => exact nomatch hu.1
  have hempty : Sound t [] := by
    refine ⟨fun m hm => (nomatch hm), fun u v hu hv _ => ?_, fun u hu => ?_⟩
    · rw [hnone u hu, hnone v hv]
    · rw [hnone u hu]
      exact ⟨by simp [Use.block], used_three h0 (by simp [Use.block])⟩
  show Sound t [1] ∧ len t 1 = 0 ∧ freeBlocks t = range' 2 32766
  refine ⟨hempty.cons (by omega) (used_three h0 (by omega)) (fun u hu => ?_) hlen, hlen, ?_⟩
  · rw [hnone u hu]
    exact zero_ne_one
  · unfold freeBlocks
    rw [show 4096 * 8 = 2 + 32766 from rfl, ← range'_append_1, filter_append,
      filter_eq_nil_iff.mpr, filter_eq_self.mpr, nil_append]
    · intro k hk
      have := mem_range'_1.mp hk
      rw [used_three h0 (by omega), decide_eq_false (by omega)]
      rfl
    · intro k hk
      have := mem_range'_1.mp hk
      rw [used_three h0 (by omega), decide_eq_true (by omega)]
      decide

end Operations

section Runs

inductive Op
  | create (fn : List Byte) (junk : Bytes)
  | pwrite (n : ℕ) (buf : Bytes) (count off : ℕ)
  | truncate (n newSize : ℕ)

/-- The file an operation is on; a new one is entered into the root directory. -/
def Op.file : Op → ℕ
  | .create _ _ => 1
  | .pwrite n _ _ _ => n
  | .truncate n _ => n

/-- An operation returns the files there are after it. -/
def Op.run (files : List ℕ) : Op → DM (List ℕ)
  | .create fn junk => do return (← Dbfs.create 1 fn junk) :: files
  | .pwrite n buf count off => do
    let _ ← Dbfs.pwrite n buf count off
    return files
  | .truncate n newSize => do
    Dbfs.truncate n newSize
    return files

/-- Operations on the files that have been created, from a disk that has just been reset. -/
def dbfs : System (Disk × List ℕ) Op where
  init s := s.2 = [1] ∧ ∃ junk d, Dbfs.init junk d = (.ok (), s.1)
  step op s :=
    match op.run s.2 s.1 with
    | (.ok files, d) => some (d, files)
    | (.err _, d) => some (d, s.2)
    | (.stop _, _) => none

/-- The operation is on a file there is, and the inode and the disk have room for it. -/
def Fits (s : Disk × List ℕ) : Op → Prop
  | .create _ _ => RoomToCreate s.1
  | .pwrite n _ count off => n ∈ s.2 ∧ Room s.1 n ((off + count) % 2 ^ 64) ∧
      (off ≤ (off + count) % 2 ^ 64 ∨ nblocks ((off + count) % 2 ^ 64) ≤ off / 4096)
  | .truncate n newSize => n ∈ s.2 ∧ (len s.1 n ≤ newSize → Room s.1 n newSize)

/-- The files are sound after the operation, and only its own file has changed. -/
def Keeps (op : Op) (s t : Disk × List ℕ) : Prop :=
  Sound t.1 t.2 ∧ 1 ∈ t.2 ∧ ∀ m ∈ s.2, m ≠ op.file → Intact s.1 t.1 m

variable {s : Disk × List ℕ}

lemma step_of_wp {op : Op} (h : wp (op.run s.2) (fun files t => Keeps op s (t, files)) .never s.1) :
    ∃ t, dbfs.step op s = some t ∧ Keeps op s t := by
  obtain ⟨files, t, hrun, hk⟩ := ok_of_never h
  exact ⟨(t, files), by simp only [dbfs, hrun], hk⟩

lemma step_fits {op : Op} (hs : Sound s.1 s.2) (h1 : 1 ∈ s.2)
    (hf : Fits s op) : ∃ t, dbfs.step op s = some t ∧ Keeps op s t := by
  obtain ⟨d, files⟩ := s
  cases op with
  | create fn junk =>
    refine step_of_wp ?_
    simp only [Op.run, wp_bind]
    exact wp_post (wp_create fn junk hs h1 hf) fun b t hc =>
      ⟨hc.sound, mem_cons_of_mem b h1, hc.intact⟩
  | pwrite n buf count off =>
    obtain ⟨hn, hr, hoff⟩ := hf
    refine step_of_wp ?_
    simp only [Op.run, wp_bind]
    refine wp_post (wp_pwrite hs hn rfl hr hoff) fun _ t ht => ?_
    obtain ⟨_, w, g, wr⟩ := ht
    have hw : Sound w files := hs.grown (max_le (hs.fits n hn) hr.1) g
    exact ⟨hw.wrote hn wr, h1, fun m hm hne =>
      (g.intact hs hn hm hne).trans (wr.intact hw hn hm hne)⟩
  | truncate n newSize =>
    obtain ⟨hn, hr⟩ := hf
    rcases Nat.lt_or_ge newSize (len d n) with hlt | hle
    · refine ⟨(d, files), ?_, hs, h1, fun _ _ _ => ⟨rfl, fun _ _ => rfl⟩⟩
      have : Op.run files (.truncate n newSize) d = (.err .inval, d) := by
        show Comp.bind _ _ d = _
        rw [Comp.bind, truncate_lt hs hn hlt]
      simp only [dbfs, this]
    · refine step_of_wp ?_
      simp only [Op.run, wp_seq]
      exact wp_post (wp_truncate (hs.inode_pos hn) (hs.lt hn) hle (hr hle)) fun _ t g =>
        ⟨hs.grown (hr hle).1 g, h1, fun m hm hne => g.intact hs hn hm hne⟩

lemma reach_sound (h : dbfs.Reach Fits s) : Sound s.1 s.2 ∧ 1 ∈ s.2 := by
  refine h.invariant (I := fun s => Sound s.1 s.2 ∧ 1 ∈ s.2) (fun s hi => ?_)
    fun s op t hs hf hstep => ?_
  · obtain ⟨hfiles, junk, d, hrun⟩ := hi
    rw [hfiles]
    exact ⟨(wp_ok (wp_init junk) hrun).1, mem_singleton_self 1⟩
  · obtain ⟨t', ht', hk⟩ := step_fits hs.1 hs.2 hf
    obtain rfl : t' = t := Option.some.inj (ht'.symm.trans hstep)
    exact ⟨hk.1, hk.2.1⟩

/-- **No block is shared or lost.** In every run from a disk that has just been reset, all of
whose operations find room in the inode and on the disk, no file has more blocks than its
inode has room for, all blocks in use are different and marked, and the next operation that
finds room ends, and leaves the other files as they are. -/
theorem blocks_sound_of_fits {s : Disk × List ℕ} (h : dbfs.Reach Fits s) :
    Sound s.1 s.2 ∧ ∀ op, Fits s op → ∃ t, dbfs.step op s = some t ∧ Keeps op s t := by
  obtain ⟨hs, h1⟩ := reach_sound h
  exact ⟨hs, fun op hf => step_fits hs h1 hf⟩

lemma exists_created (fn : List Byte) : ∃ s n, dbfs.Reach Fits s ∧ s.2 = [n, 1] ∧ n ≠ 1 ∧
    len s.1 n = 0 ∧ (freeBlocks s.1).length = 32764 := by
  obtain ⟨_, t, hinit, hs, hlen, hfree⟩ := ok_of_never (wp_init (d := 0) 0)
  have hroom : RoomToCreate t := by
    rw [RoomToCreate, hlen, hfree, length_range']
    exact ⟨by omega, by decide⟩
  have hstart : dbfs.Reach Fits (t, [1]) := .start ⟨rfl, 0, 0, hinit⟩
  obtain ⟨n, w, hrun, hc⟩ := ok_of_never (wp_create fn 0 hs (mem_singleton_self 1) hroom)
  have hstep : dbfs.step (.create fn 0) (t, [1]) = some (w, [n, 1]) := by
    simp only [dbfs, Op.run, bind_of_ok hrun]
    rfl
  refine ⟨(w, [n, 1]), n, System.Reach.next (a := .create fn 0) hstart hroom hstep, rfl,
    by simpa using hc.fresh, hc.empty, ?_⟩
  rw [hc.free, hlen, hfree, length_drop, length_range']
  rfl

theorem blocks_sound_of_fits_created : ∃ s n, dbfs.Reach Fits s ∧ s.2 = [n, 1] ∧
    Sound s.1 s.2 ∧ ∃ t, dbfs.step (.truncate n 5000) s = some t ∧
      Keeps (.truncate n 5000) s t := by
  obtain ⟨s, n, h, hs, _, hlen, hfree⟩ := exists_created [0x61]
  obtain ⟨hsound, hnext⟩ := blocks_sound_of_fits h
  refine ⟨s, n, h, hs, hsound, hnext (.truncate n 5000) ⟨by rw [hs]; exact mem_cons_self, ?_⟩⟩
  rw [Room, hlen, hfree]
  decide

/-- A file is made longer than its inode has room for. -/
theorem truncate_overflows : ∃ s n, dbfs.Reach Fits s ∧ s.2 = [n, 1] ∧ len s.1 n = 0 ∧
    (truncate n (4096 * 256 + 1) s.1).1 = .stop .gone := by
  obtain ⟨s, n, h, hs, _, hlen, hfree⟩ := exists_created [0x61]
  refine ⟨s, n, h, hs, hlen, ?_⟩
  have hlt : n < 32768 := (reach_sound h).1.lt (by rw [hs]; exact mem_cons_self)
  have hlen' : inodeLen (Bytes.start s.1 (4096 * n)) = 0 := hlen
  have hgone : wp (truncate n (4096 * 256 + 1)) (fun _ _ => False)
      ⟨fun _ _ => False, fun w _ => w = .gone⟩ s.1 := by
    unfold truncate grow
    rw [wp_bind, wp_readInode hlt, hlen', if_neg (by omega), if_pos (by omega), wp_bind]
    exact wp_mono (wp_growLoop_gone (Nat.zero_le _) (by decide) (by rw [hfree]; decide))
      (fun _ _ => False.elim) fun _ _ => False.elim
  simp only [wp] at hgone
  rcases hm : truncate n (4096 * 256 + 1) s.1 with ⟨_ | _ | w, t⟩ <;> simp only [hm] at hgone
  rw [hgone]

end Runs

end Corey.Fs.Dbfs
