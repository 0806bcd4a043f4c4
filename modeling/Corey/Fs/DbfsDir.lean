import Corey.Fs.DbfsFiles

/-!
The root directory of the disk file system.

Entries are appended to the directory as to any file, 72 bytes each, and are looked up block
by block, 56 entries in a block.
-/

namespace Corey.Fs.Dbfs

open Corey.Comp List

variable {d t : Disk} {b k : ℕ} {fn fn' : List Byte} {files : List ℕ} {ents : List (List Byte × ℕ)}

section Names

/-- A string that fits the field of an entry. -/
def IsName (fn : List Byte) : Prop := fn.length < 64 ∧ 0 ∉ fn

lemma cstring_ne_zero (h : 0 ∉ fn) (hk : k < fn.length) : cstring fn k ≠ 0 := by
  intro h0
  rw [cstring, getElem?_eq_getElem hk, Option.getD_some] at h0
  exact h (h0 ▸ getElem_mem hk)

lemma cstring_of_le (hk : fn.length ≤ k) : cstring fn k = 0 := by
  rw [cstring, getElem?_eq_none hk, Option.getD_none]

lemma eq_of_cstring (h : 0 ∉ fn) (h' : 0 ∉ fn')
    (heq : ∀ k < fn.length + 1, cstring fn' k = cstring fn k) : fn' = fn := by
  have hlen : fn'.length = fn.length := by
    rcases Nat.lt_trichotomy fn'.length fn.length with hlt | he | hgt
    · have := heq fn'.length (by omega)
      rw [cstring_of_le le_rfl] at this
      exact absurd this.symm (cstring_ne_zero h hlt)
    · exact he
    · have := heq fn.length (by omega)
      rw [cstring_of_le (le_refl fn.length)] at this
      exact absurd this (cstring_ne_zero h' hgt)
  refine ext_getElem hlen fun k hk hk' => ?_
  have := heq k (by omega)
  rwa [cstring, cstring, getElem?_eq_getElem hk, getElem?_eq_getElem hk',
    Option.getD_some, Option.getD_some] at this

lemma dent_name (h : IsName fn) (hk : k < 64) : dent fn b k = cstring fn k := by
  unfold dent Bytes.putWord
  rw [Bytes.put_away (by omega)]
  split_ifs with h63
  · rfl
  · exact (cstring_of_le (by have := h.1; omega)).symm

lemma strEq_dent {dir : Bytes} (h : 0 ∉ fn) (h' : IsName fn')
    (hdir : ∀ k < 64, dir k = dent fn' b k) : strEq dir fn = decide (fn' = fn) := by
  have hall : strEq dir fn = true ↔ fn' = fn := by
    simp only [strEq, all_eq_true, mem_range, beq_iff_eq]
    constructor
    · intro heq
      have hname : ∀ k < fn.length + 1, k < 64 → cstring fn' k = cstring fn k := fun k hk hk' => by
        rw [← heq k hk, hdir k hk', dent_name h' hk']
      have hlt : fn.length < 64 := by
        by_contra hge
        have h63 := hname 63 (by omega) (by omega)
        rw [cstring_of_le (by have := h'.1; omega)] at h63
        exact cstring_ne_zero h (by omega) h63.symm
      exact eq_of_cstring h h'.2 fun k hk => hname k hk (by omega)
    · rintro rfl k hk
      have := h'.1
      rw [hdir k (by omega), dent_name h' (by omega)]
  exact Bool.eq_iff_iff.mpr (hall.trans decide_eq_true_iff.symm)

end Names

section Listing

structure Listing (files : List ℕ) (d : Disk) (ents : List (List Byte × ℕ)) : Prop where
  sound : Sound d files
  root : 1 ∈ files
  len : Dbfs.len d 1 = 72 * ents.length
  entry : ∀ j e, ents[j]? = some e → ∀ k < 72, byteAt d 1 (72 * j + k) = dent e.1 e.2 k
  inode : ∀ e ∈ ents, e.2 < 32768

lemma Listing.created (h : Listing files d ents) (hc : Created fn b files d t) :
    Listing (b :: files) t (ents ++ [(fn, b)]) where
  sound := hc.sound
  root := List.mem_cons_of_mem b h.root
  len := by
    rw [hc.dir, h.len, List.length_append, List.length_singleton]
    omega
  entry j e hj k hk := by
    have hlen := h.len
    rw [List.getElem?_append] at hj
    split_ifs at hj with hlt
    · rw [hc.entry _ (by omega), if_neg (by omega), h.entry j e hj k hk]
    · have hj' : j = ents.length := by
        have := (List.getElem?_eq_some_iff.mp hj).1
        rw [List.length_singleton] at this
        omega
      rw [hj', Nat.sub_self] at hj
      cases hj
      rw [hj', hc.entry _ (by omega), if_pos (by omega), hlen, Nat.add_sub_cancel_left]
  inode e he := by
    rcases List.mem_append.mp he with he | he
    · exact h.inode e he
    · rw [List.mem_singleton.mp he]
      exact hc.sound.lt List.mem_cons_self

def createAll : List (List Byte × Bytes) → DM (List ℕ)
  | [] => pure []
  | c :: cs => do
    let b ← create 1 c.1 c.2
    let bs ← createAll cs
    return b :: bs

/-- The blocks that more entries take. -/
def blocksFor (ents more : ℕ) : ℕ := more + (nblocks (72 * (ents + more)) - nblocks (72 * ents))

lemma wp_createAll (calls : List (List Byte × Bytes)) (h : Listing files d ents)
    (h20 : 72 * (ents.length + calls.length) ≤ 2 ^ 20)
    (hfree : blocksFor ents.length calls.length ≤ (freeBlocks d).length) :
    wp (createAll calls) (fun bs t => bs.length = calls.length ∧ ∃ files',
      Listing files' t (ents ++ (calls.map (·.1)).zip bs)) .never d := by
  induction calls generalizing d files ents with
  | nil => exact ⟨rfl, files, by simpa using h⟩
  | cons c cs ih =>
    rw [length_cons] at h20 hfree
    unfold createAll
    unfold blocksFor at hfree
    have hmono := nblocks_mono (show 72 * ents.length ≤ 72 * ents.length + 72 by omega) (by omega)
    have hmono' := nblocks_mono (show 72 * ents.length + 72 ≤
      72 * (ents.length + (cs.length + 1)) by omega) h20
    rw [wp_bind]
    refine wp_post (wp_create c.1 c.2 h.sound h.root ⟨by rw [h.len]; omega, by rw [h.len]; omega⟩)
      fun b t hc => ?_
    rw [wp_bind]
    have hlen : (ents ++ [(c.1, b)]).length = ents.length + 1 := by simp
    refine wp_post (ih (h.created hc) (by rw [hlen]; omega) ?_) fun bs w ⟨hbs, files', hl⟩ =>
      ⟨by simp [hbs], files', by simpa using hl⟩
    rw [hc.free, hlen, h.len, length_drop, blocksFor,
      show ents.length + 1 + cs.length = ents.length + (cs.length + 1) by omega,
      show 72 * (ents.length + 1) = 72 * ents.length + 72 by omega]
    omega

end Listing

section Lookup

def loaded (d : Disk) (b : ℕ) : Bytes := Bytes.put (fun _ => 0) 0 (d.start (4096 * b)) 4096

variable {i : ℕ}

lemma wp_dirLookupLoop {Q : ℕ → Disk → Prop} {X : Exits Errno Disk} {ino : Bytes}
    (hi : i < 256) (hb : dblock ino i < 32768) : wp (dirLookupLoop ino fn (k + 1) i) Q X d ↔
      (∀ j, findDent (loaded d (dblock ino i)) (inodeLen ino) i fn = some j →
        Q ((loaded d (dblock ino i)).word (72 * j + 64)) d) ∧
      (findDent (loaded d (dblock ino i)) (inodeLen ino) i fn = none →
        wp (dirLookupLoop ino fn k (i + 1)) Q X d) := by
  rw [dirLookupLoop, if_pos hi, wp_bind, wp_echeck, wp_readWhole hb, ← loaded]
  cases findDent (loaded d (dblock ino i)) (inodeLen ino) i fn with
  | none => simp
  | some j => simp

lemma loaded_apply {n : ℕ} (hk : k < 4096) :
    loaded d (dataBlock d n i) k = byteAt d n (4096 * i + k) := by
  unfold loaded byteAt
  rw [Bytes.put_within (by omega) (by omega), Bytes.start_apply,
    show (4096 * i + k) / 4096 = i by omega, show (4096 * i + k) % 4096 = k by omega]
  exact congrArg d (by omega)

lemma test_iff (h : Listing files d ents) (hv : ∀ e ∈ ents, IsName e.1) (hfn : 0 ∉ fn)
    {j : ℕ} (hj : j < 56) :
    (4096 * 0 + 72 * j < len d 1 && strEq ((loaded d (dataBlock d 1 0)).start (72 * j)) fn) = true ↔
      ∃ e, ents[j]? = some e ∧ e.1 = fn := by
  have hlen := h.len
  rw [Bool.and_eq_true, decide_eq_true_iff]
  rcases Nat.lt_or_ge j ents.length with hlt | hge
  · have he := getElem?_eq_getElem hlt
    rw [strEq_dent (b := ents[j].2) hfn (hv _ (getElem_mem hlt)) fun k hk => ?_, decide_eq_true_iff]
    · constructor
      · exact fun hh => ⟨_, he, hh.2⟩
      · rintro ⟨e, he', rfl⟩
        rw [he] at he'
        cases he'
        exact ⟨by omega, rfl⟩
    · rw [Bytes.start_apply, loaded_apply (by omega), Nat.mul_zero, Nat.zero_add,
        h.entry j _ he k (by omega)]
  · constructor
    · exact fun hh => absurd hh.1 (by omega)
    · rintro ⟨e, he, _⟩
      rw [getElem?_eq_none hge] at he
      exact nomatch he

lemma findDent_eq_some (h : Listing files d ents) (hv : ∀ e ∈ ents, IsName e.1)
    (hnd : (ents.map (·.1)).Nodup) (he : ents[i]? = some (fn, b)) (hi : i < 56) :
    findDent (loaded d (dataBlock d 1 0)) (len d 1) 0 fn = some i := by
  have hfn : 0 ∉ fn := (hv _ (List.mem_of_getElem? he)).2
  refine List.find?_range_eq_some.mpr ⟨(test_iff h hv hfn hi).mpr ⟨_, he, rfl⟩,
    List.mem_range.mpr hi, fun j hj => ?_⟩
  rw [Bool.not_eq_true', Bool.eq_false_iff]
  intro htest
  obtain ⟨e, hej, hefn⟩ := (test_iff h hv hfn (hj.trans hi)).mp htest
  have hlt : j < (ents.map (·.1)).length := by
    rw [List.length_map]
    exact (List.getElem?_eq_some_iff.mp hej).1
  refine hj.ne ((List.getElem?_inj hlt hnd).mp ?_)
  rw [List.getElem?_map, List.getElem?_map, hej, he]
  exact congrArg some hefn

lemma findDent_eq_none (h : Listing files d ents) (hv : ∀ e ∈ ents, IsName e.1) (hfn : 0 ∉ fn)
    (hne : fn ∉ (ents.take 56).map (·.1)) :
    findDent (loaded d (dataBlock d 1 0)) (len d 1) 0 fn = none := by
  refine find?_range_eq_none.mpr fun j hj => ?_
  rw [Bool.not_eq_true', Bool.eq_false_iff]
  intro htest
  obtain ⟨e, hej, hefn⟩ := (test_iff h hv hfn hj).mp htest
  refine hne (mem_map.mpr ⟨e, mem_of_getElem? (i := j) ?_, hefn⟩)
  rw [getElem?_take, if_pos hj, hej]

lemma wp_dirLookup_found (h : Listing files d ents) (hv : ∀ e ∈ ents, IsName e.1)
    (h56 : ents.length ≤ 56) (hnd : (ents.map (·.1)).Nodup) (he : ents[i]? = some (fn, b)) :
    wp (dirLookup 1 fn) (fun r t => r = b ∧ t = d) .never d := by
  have hi := (List.getElem?_eq_some_iff.mp he).1
  have hlen := h.len
  have hnb : nblocks (inodeLen (d.start (4096 * 1))) = 1 := by
    show nblocks (len d 1) = 1
    rw [nblocks_eq (by omega)]
    omega
  have hblock := (h.sound.marked (.data 1 0) ⟨h.root, by rw [hnb]; omega⟩).1
  unfold dirLookup
  rw [wp_bind, wp_readInode (by omega), hnb, wp_dirLookupLoop (by omega) hblock]
  have hfind := findDent_eq_some h hv hnd he (by omega)
  refine ⟨fun j hj => ⟨?_, rfl⟩, fun hnone => ?_⟩
  · obtain rfl : j = i := Option.some.inj (hj.symm.trans hfind)
    have hb := h.inode _ (List.mem_of_getElem? he)
    calc Bytes.word _ (72 * j + 64) = (dent fn b).word 64 := Bytes.word_congr fun k hk => by
          refine (loaded_apply (by omega)).trans ?_
          rw [Nat.mul_zero, Nat.zero_add, Nat.add_assoc]
          exact h.entry j _ he (64 + k) (by omega)
      _ = b := Bytes.word_putWord (by simp only at hb; omega)
  · exact nomatch hfind.symm.trans hnone

lemma wp_dirLookup_missing (h : Listing files d ents) (hv : ∀ e ∈ ents, IsName e.1)
    (hfn : 0 ∉ fn) (h56 : ents.length ≤ 56) (hne : fn ∉ ents.map (·.1)) :
    wp (dirLookup 1 fn) (fun _ _ => False)
      ⟨fun e t => e = .notFound ∧ t = d, fun _ _ => False⟩ d := by
  have hlen := h.len
  unfold dirLookup
  rw [wp_bind, wp_readInode (by omega)]
  rcases Nat.eq_zero_or_pos ents.length with h0 | hpos
  · have hnb : nblocks (inodeLen (d.start (4096 * 1))) = 0 := by
      show nblocks (len d 1) = 0
      rw [nblocks_eq (by omega)]
      omega
    rw [hnb]
    exact ⟨rfl, rfl⟩
  · have hnb : nblocks (inodeLen (d.start (4096 * 1))) = 1 := by
      show nblocks (len d 1) = 1
      rw [nblocks_eq (by omega)]
      omega
    have hblock := (h.sound.marked (.data 1 0) ⟨h.root, by rw [hnb]; omega⟩).1
    rw [hnb, wp_dirLookupLoop (by omega) hblock]
    have hfind := findDent_eq_none h hv hfn (by rwa [take_of_length_le h56])
    exact ⟨fun j hj => (nomatch hfind.symm.trans hj), fun _ => ⟨rfl, rfl⟩⟩

lemma wp_dirLookup_lost (h : Listing files d ents) (hv : ∀ e ∈ ents, IsName e.1) (hfn : 0 ∉ fn)
    (h57 : ents.length = 57) (hne : fn ∉ (ents.take 56).map (·.1)) (h3 : 2 < fn.length) :
    wp (dirLookup 1 fn) (fun _ _ => False)
      ⟨fun e t => e = .notFound ∧ t = d, fun _ _ => False⟩ d := by
  have hlen := h.len
  have hnb : nblocks (inodeLen (d.start (4096 * 1))) = 2 := by
    show nblocks (len d 1) = 2
    rw [nblocks_eq (by omega)]
    omega
  have hblock : ∀ i < 2, dataBlock d 1 i < 32768 := fun i hi =>
    (h.sound.marked (.data 1 i) ⟨h.root, by rw [hnb]; exact hi⟩).1
  have he := getElem?_eq_getElem (show 56 < ents.length by omega)
  have hb := h.inode _ (mem_of_getElem? he)
  have hfind : findDent (loaded d (dataBlock d 1 1)) (len d 1) 1 fn = none := by
    refine find?_range_eq_none.mpr fun j hj => ?_
    rw [Bool.not_eq_true', Bool.and_eq_false_imp, decide_eq_true_iff]
    intro hlt
    obtain rfl : j = 0 := by omega
    -- the third byte of the inode number of the entry is zero
    have hbyte : loaded d (dataBlock d 1 1) 2 = 0 := by
      rw [loaded_apply (by omega), show 4096 * 1 + 2 = 72 * 56 + 66 by rfl,
        h.entry 56 _ he 66 (by omega)]
      unfold dent Bytes.putWord
      rw [Bytes.put_within (by omega) (by omega)]
      show BitVec.ofNat 8 (ents[56].2 / 65536) = 0
      rw [Nat.div_eq_of_lt (by omega)]
      rfl
    rw [strEq, all_eq_false]
    refine ⟨2, mem_range.mpr (by omega), ?_⟩
    rw [Bytes.start_apply, hbyte, beq_iff_eq]
    exact (cstring_ne_zero hfn h3).symm
  unfold dirLookup
  rw [wp_bind, wp_readInode (by omega), hnb, wp_dirLookupLoop (by omega) (hblock 0 (by omega))]
  refine ⟨fun j hj => (nomatch (findDent_eq_none h hv hfn hne).symm.trans hj), fun _ => ?_⟩
  rw [wp_dirLookupLoop (by omega) (hblock 1 (by omega))]
  exact ⟨fun j hj => (nomatch hfind.symm.trans hj), fun _ => ⟨rfl, rfl⟩⟩

lemma listing_nil (hs : Sound d files) (h1 : 1 ∈ files) (h0 : len d 1 = 0) : Listing files d [] :=
  ⟨hs, h1, h0, fun _ _ h => (nomatch h), fun _ h => (nomatch h)⟩

/-- **Directories find the files entered in their first block.** After any sequence of at most
56 creations with different names, on a disk with enough blocks, a lookup of a name that was
entered gives the inode of the creation, and of any other name it fails. -/
theorem dirLookup_created (calls : List (List Byte × Bytes)) (hs : Sound d files) (h1 : 1 ∈ files)
    (h0 : len d 1 = 0) (hfree : blocksFor 0 calls.length ≤ (freeBlocks d).length)
    (hv : ∀ c ∈ calls, IsName c.1) (hnd : (calls.map (·.1)).Nodup) (h56 : calls.length ≤ 56) :
    ∃ inodes t, createAll calls d = (.ok inodes, t) ∧ inodes.length = calls.length ∧
      (∀ (i : ℕ) fn b, (calls.map (·.1))[i]? = some fn → inodes[i]? = some b →
        dirLookup 1 fn t = (.ok b, t)) ∧
      ∀ fn, 0 ∉ fn → fn ∉ calls.map (·.1) → dirLookup 1 fn t = (.err .notFound, t) := by
  obtain ⟨inodes, t, hrun, hlen, files', hl⟩ :=
    ok_of_never (wp_createAll calls (listing_nil hs h1 h0) (by simp; omega) (by simpa using hfree))
  rw [nil_append] at hl
  have hnames : ((calls.map (·.1)).zip inodes).map (·.1) = calls.map (·.1) :=
    map_fst_zip (by rw [length_map, hlen])
  have hents : ((calls.map (·.1)).zip inodes).length ≤ 56 := by simp [hlen, h56]
  have hvalid : ∀ e ∈ (calls.map (·.1)).zip inodes, IsName e.1 := fun e he => by
    obtain ⟨c, hc, hce⟩ := mem_map.mp (of_mem_zip he).1
    rw [← hce]
    exact hv c hc
  refine ⟨inodes, t, hrun, hlen, fun i fn b hfn hb => ?_, fun fn h0 hne => ?_⟩
  · refine eq_of_wp (wp_dirLookup_found hl hvalid (i := i) hents (by rwa [hnames]) ?_)
    rw [getElem?_zip_eq_some]
    exact ⟨hfn, hb⟩
  · exact eq_err_of_wp (wp_dirLookup_missing hl hvalid h0 hents (by rwa [hnames]))

lemma exists_fresh : ∃ d, init 0 0 = (.ok (), d) ∧ Sound d [1] ∧ len d 1 = 0 ∧
    (freeBlocks d).length = 32766 := by
  obtain ⟨_, d, hinit, hs, hlen, hfree⟩ := ok_of_never (wp_init (d := 0) 0)
  exact ⟨d, hinit, hs, hlen, by rw [hfree, length_range']⟩

theorem dirLookup_created_two : ∃ d t a b, init 0 0 = (.ok (), d) ∧
    createAll [([1], 0), ([1, 2], 0)] d = (.ok [a, b], t) ∧ dirLookup 1 [1] t = (.ok a, t) ∧
      dirLookup 1 [1, 2] t = (.ok b, t) ∧ dirLookup 1 [2] t = (.err .notFound, t) := by
  obtain ⟨d, hinit, hs, hlen, hfree⟩ := exists_fresh
  obtain ⟨inodes, t, hrun, hl, hfound, hother⟩ := dirLookup_created
    [([1], 0), ([1, 2], 0)] hs (mem_singleton_self 1) hlen
    (by rw [hfree]; decide) (by simp [IsName]) (by decide) (by decide)
  match inodes, hl with
  | [a, b], _ =>
    exact ⟨d, t, a, b, hinit, hrun, hfound 0 [1] a rfl rfl, hfound 1 [1, 2] b rfl rfl,
      hother [2] (by decide) (by decide)⟩

/-- Names for the entries of more than one block. -/
def names (n : ℕ) : List (List Byte × Bytes) :=
  (List.range n).map fun i => ([BitVec.ofNat 8 (i + 1), 1, 1], 0)

/-- After 57 creations the last file is not found. -/
theorem dirLookup_loses : ∃ d inodes t, init 0 0 = (.ok (), d) ∧
    createAll (names 57) d = (.ok inodes, t) ∧ inodes.length = 57 ∧
      (names 57)[56]?.map (·.1) = some [57, 1, 1] ∧
        dirLookup 1 [57, 1, 1] t = (.err .notFound, t) := by
  obtain ⟨d, hinit, hs, hlen, hfree⟩ := exists_fresh
  obtain ⟨inodes, t, hrun, hl, files, h⟩ := ok_of_never (wp_createAll (names 57)
    (listing_nil hs (mem_singleton_self 1) hlen) (by decide) (by rw [hfree]; decide))
  rw [nil_append] at h
  have hnames : (((names 57).map (·.1)).zip inodes).map (·.1) = (names 57).map (·.1) :=
    map_fst_zip (by rw [length_map, hl])
  refine ⟨d, inodes, t, hinit, hrun, hl.trans (by decide), by decide,
    eq_err_of_wp (wp_dirLookup_lost h (fun e he => ?_) (by decide) ?_ ?_ (by decide))⟩
  · have hvalid : ∀ fn ∈ (names 57).map (·.1), fn.length < 64 ∧ 0 ∉ fn := by decide
    exact hvalid _ (of_mem_zip he).1
  · rw [length_zip, length_map, hl]
    decide
  · rw [map_take, hnames]
    decide

end Lookup

end Corey.Fs.Dbfs
