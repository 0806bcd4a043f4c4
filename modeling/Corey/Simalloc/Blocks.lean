import Corey.Simalloc.Malloc

/-!
The blocks of the simple allocator do not overlap.

New blocks are taken from the end of the range in use, and a block that is neither in a list nor
handed out is the only thing that is handed out or put into a list. The sizes are right as long as
the header can be added to what is asked for.
-/

namespace Corey.Simalloc

open Function Corey.Comp List
open Corey.Kern (word64 roundup)

variable {s t : Heap} {fails : Bool} {n m p blk i : ℕ} {Q : Unit → Heap → Prop}
  {X : Exits Errno Heap} {mem : ℕ → UInt8}

/-! ### Sizes -/

lemma getOrder_le (n : ℕ) : getOrder n ≤ bigBlkIndex := findIdx_le_length

lemma le_class (h : getOrder n ≠ bigBlkIndex) : n ≤ sizes.getD (getOrder n) 0 := by
  have hlt : getOrder n < sizes.length := Nat.lt_of_le_of_ne (getOrder_le n) h
  have hle : decide (n ≤ sizes[getOrder n]) = true := findIdx_getElem (w := hlt)
  rw [getD_eq_getElem?_getD, getElem?_eq_getElem hlt]
  exact of_decide_eq_true hle

lemma class_spec : ∀ o < bigBlkIndex, getOrder (sizes.getD o 0) = o ∧ sizes.getD o 0 % 8 = 0 ∧
    sizes.getD o 0 ≤ 2 ^ 17 := by decide

lemma getOrder_lt (h : getOrder n ≠ bigBlkIndex) : getOrder n < bigBlkIndex :=
  Nat.lt_of_le_of_ne (getOrder_le n) h

lemma le_blockSize (n : ℕ) : n ≤ blockSize n := by
  rw [blockSize]
  split_ifs with h
  · exact Nat.le_refl n
  · exact le_class h

lemma getOrder_blockSize (n : ℕ) : getOrder (blockSize n) = getOrder n := by
  rw [blockSize]
  split_ifs with h
  · rfl
  · exact (class_spec _ (getOrder_lt h)).1

lemma blockSize_mod (h : n % 8 = 0) : blockSize n % 8 = 0 := by
  rw [blockSize]
  split_ifs with hbig
  · exact h
  · exact (class_spec _ (getOrder_lt hbig)).2.1

lemma blockSize_lt (h : n < word64) : blockSize n < word64 := by
  rw [blockSize]
  split_ifs with hbig
  · exact h
  · have := (class_spec _ (getOrder_lt hbig)).2.2
    have hw : word64 = 2 ^ 64 := rfl
    omega

lemma blockSize_class (h : getOrder (blockSize n) ≠ bigBlkIndex) :
    blockSize n = sizes.getD (getOrder (blockSize n)) 0 := by
  rw [getOrder_blockSize] at h ⊢
  rw [blockSize, if_neg h]

lemma newSize_eq (n : ℕ) : newSize n =
    if (n + 24) % 2 ^ 64 % 8 = 0 then (n + 24) % 2 ^ 64
    else (1 + (n + 24) % 2 ^ 64 / 8) * 8 % 2 ^ 64 := rfl

lemma newSize_mod (n : ℕ) : newSize n % 8 = 0 := by
  rw [newSize_eq]
  split_ifs with h
  · exact h
  · omega

lemma newSize_lt (n : ℕ) : newSize n < word64 := by
  rw [newSize_eq]
  show _ < 2 ^ 64
  split_ifs <;> omega

lemma le_newSize (h : n + 32 ≤ word64) : n + 24 ≤ newSize n := by
  have h : n + 32 ≤ 2 ^ 64 := h
  rw [newSize_eq]
  split_ifs <;> omega

lemma newSize_le (hn : n < word64) (h : ¬ n + 32 ≤ word64) : newSize n ≤ 24 := by
  have hn : n < 2 ^ 64 := hn
  have h : ¬ n + 32 ≤ 2 ^ 64 := h
  rw [newSize_eq]
  split_ifs <;> omega

lemma roundup_eq (hm : n % 8 = 0) (hn : n < word64) : roundup n 8 = n := by
  have hw : word64 = 2 ^ 64 := rfl
  rw [roundup, Kern.rounddown, hw]
  omega

lemma growLen_gt (req : ℕ) : ∀ k len, 0 < len → req < len + k → req < growLen req k len
  | 0, _, _, h => h
  | k + 1, len, hpos, h => by
    rw [growLen]
    have hlim : 0 < doubleGrowLimit := by decide
    split_ifs with hle hlt
    · exact growLen_gt req k _ (by omega) (by omega)
    · exact growLen_gt req k _ (by omega) (by omega)
    · omega

/-! ### The invariant -/

structure Inv (s : Heap) : Prop where
  sound : Sound s
  region : s.arena.base + ummapUpperLen ≤ 2 ^ 63
  cur : s.arena.base ≤ s.arena.cur ∧ s.arena.cur ≤ s.arena.base + ummapUpperLen ∧
    s.arena.cur < s.arena.base + s.arena.alloclen
  below : ∀ blk n, s.hdr blk = some n → blk + n ≤ s.arena.cur
  size : ∀ blk n, s.hdr blk = some n →
    32 ≤ n ∧ (getOrder n ≠ bigBlkIndex → n = sizes.getD (getOrder n) 0)
  listed : ∀ o, ∀ blk ∈ s.lists o, (∃ n, s.hdr blk = some n ∧ getOrder n = o) ∧
    ∀ b ∈ s.live, b.1 ≠ toDataPtr blk
  nodup : ∀ o, (s.lists o).Nodup

/-- A block that is neither in a list nor handed out. -/
structure Limbo (s : Heap) (blk : ℕ) : Prop where
  unlisted : ∀ o, blk ∉ s.lists o
  unused : ∀ b ∈ s.live, b.1 ≠ toDataPtr blk

lemma toDataPtr_injective {a b : ℕ} (h : toDataPtr a = toDataPtr b) : a = b :=
  Nat.add_right_cancel h

lemma toBlkHdr_toDataPtr (h : blk < 2 ^ 63) : toBlkHdr (toDataPtr blk) = blk := by
  have hw : word64 = 2 ^ 64 := rfl
  have hh : blkHdrSize = 24 := rfl
  rw [toBlkHdr, toDataPtr, hw, hh]
  omega

lemma Inv.hdr_lt (hs : Inv s) (h : s.hdr blk = some n) : blk + n ≤ 2 ^ 63 :=
  (hs.sound.inside blk n h).2.1.trans hs.region

lemma Inv.withMem (hs : Inv s) (mem : ℕ → UInt8) : Inv { s with mem := mem } :=
  ⟨⟨hs.sound.usable, hs.sound.distinct, hs.sound.inside, hs.sound.apart⟩, hs.region, hs.cur,
    hs.below, hs.size, hs.listed, hs.nodup⟩

lemma Limbo.withMem (h : Limbo s blk) (mem : ℕ → UInt8) : Limbo { s with mem := mem } blk :=
  ⟨h.unlisted, h.unused⟩

lemma Inv.handed (hs : Inv s) (hl : Limbo s blk) (hb : s.hdr blk = some n)
    (hm : blkHdrSize + m ≤ n) : Inv { s with live := (toDataPtr blk, m) :: s.live } where
  sound :=
    { usable := forall_mem_cons.mpr ⟨⟨blk, n, rfl, hb, hm⟩, hs.sound.usable⟩
      distinct := pairwise_cons.mpr ⟨fun b hb => (hl.unused b hb).symm, hs.sound.distinct⟩
      inside := hs.sound.inside
      apart := hs.sound.apart }
  region := hs.region
  cur := hs.cur
  below := hs.below
  size := hs.size
  listed o blk' h := by
    refine ⟨(hs.listed o blk' h).1, forall_mem_cons.mpr ⟨fun heq => ?_, (hs.listed o blk' h).2⟩⟩
    exact hl.unlisted o (toDataPtr_injective heq ▸ h)
  nodup := hs.nodup

lemma Inv.drop (hs : Inv s) (hp : (p, m) ∈ s.live) :
    Inv (s.dropped p) ∧ ∃ blk n, p = toDataPtr blk ∧ s.hdr blk = some n ∧ blkHdrSize + m ≤ n ∧
      Limbo (s.dropped p) blk := by
  have hsub : ∀ b ∈ (s.dropped p).live, b ∈ s.live ∧ b.1 ≠ p := fun b hb => by
    obtain ⟨h1, h2⟩ := mem_filter.mp hb
    exact ⟨h1, of_decide_eq_true h2⟩
  obtain ⟨blk, n, hptr, hb, hle⟩ := hs.sound.usable _ hp
  refine ⟨⟨⟨fun b hb => hs.sound.usable b (hsub b hb).1,
    hs.sound.distinct.sublist filter_sublist, hs.sound.inside, hs.sound.apart⟩, hs.region,
    hs.cur, hs.below, hs.size, fun o blk' h => ⟨(hs.listed o blk' h).1, fun b hb =>
      (hs.listed o blk' h).2 b (hsub b hb).1⟩, hs.nodup⟩, blk, n, hptr, hb, hle,
    fun o h => (hs.listed o blk h).2 _ hp hptr, fun b hb => hptr ▸ (hsub b hb).2⟩

lemma Inv.list (hs : Inv s) (hl : Limbo s blk) (hb : s.hdr blk = some n) :
    Inv { s with lists := update s.lists (getOrder n) (blk :: s.lists (getOrder n)) } where
  sound := ⟨hs.sound.usable, hs.sound.distinct, hs.sound.inside, hs.sound.apart⟩
  region := hs.region
  cur := hs.cur
  below := hs.below
  size := hs.size
  listed o blk' h := by
    dsimp only at h
    by_cases ho : o = getOrder n
    · subst ho
      rw [update_self] at h
      rcases mem_cons.mp h with rfl | h
      · exact ⟨⟨n, hb, rfl⟩, hl.unused⟩
      · exact hs.listed _ blk' h
    · rw [update_of_ne ho] at h
      exact hs.listed o blk' h
  nodup := (forall_update_iff s.lists fun _ l => l.Nodup).mpr
    ⟨nodup_cons.mpr ⟨hl.unlisted _, hs.nodup _⟩, fun o _ => hs.nodup o⟩

lemma Inv.unlist (hs : Inv s) {o : ℕ} (hb : blk ∈ s.lists o) :
    Inv { s with lists := update s.lists o ((s.lists o).erase blk) } ∧
      Limbo { s with lists := update s.lists o ((s.lists o).erase blk) } blk := by
  obtain ⟨⟨n, hn, ho⟩, hunused⟩ := hs.listed o blk hb
  have hsub : ∀ o' blk', blk' ∈ update s.lists o ((s.lists o).erase blk) o' →
      blk' ∈ s.lists o' := by
    intro o' blk' h
    by_cases heq : o' = o
    · subst heq
      rw [update_self] at h
      exact mem_of_mem_erase h
    · rwa [update_of_ne heq] at h
  refine ⟨⟨⟨hs.sound.usable, hs.sound.distinct, hs.sound.inside, hs.sound.apart⟩, hs.region, hs.cur,
    hs.below, hs.size, fun o' blk' h => hs.listed o' blk' (hsub o' blk' h), ?_⟩,
    fun o' h => ?_, hunused⟩
  · exact (forall_update_iff s.lists fun _ l => l.Nodup).mpr
      ⟨(hs.nodup o).erase blk, fun o' _ => hs.nodup o'⟩
  · obtain ⟨⟨n', hn', ho'⟩, -⟩ := hs.listed o' blk (hsub o' blk h)
    obtain rfl : n = n' := Option.some.inj (hn.symm.trans hn')
    dsimp only at h
    rw [← ho', ho, update_self] at h
    exact (hs.nodup o).not_mem_erase h

lemma Inv.newBlock (hs : Inv s) {a : Arena} (hbase : a.base = s.arena.base)
    (hcur : a.cur = s.arena.cur + n) (hupper : a.cur ≤ a.base + ummapUpperLen)
    (hlen : a.cur < a.base + a.alloclen) (hlen' : s.arena.alloclen ≤ a.alloclen) (h32 : 32 ≤ n)
    (hclass : getOrder n ≠ bigBlkIndex → n = sizes.getD (getOrder n) 0) :
    Inv { s with arena := a, hdr := update s.hdr s.arena.cur (some n) } ∧
      Limbo { s with arena := a, hdr := update s.hdr s.arena.cur (some n) } s.arena.cur := by
  obtain ⟨hc1, hc2, hc3⟩ := hs.cur
  -- there is nothing at the end yet
  have hnone : s.hdr s.arena.cur = none := by
    cases h : s.hdr s.arena.cur with
    | none => rfl
    | some n' =>
      have := hs.below _ _ h
      have := (hs.size _ _ h).1
      omega
  have hold : ∀ blk n', s.hdr blk = some n' → update s.hdr s.arena.cur (some n) blk = some n' := by
    intro blk n' h
    rw [update_of_ne]
    · exact h
    · rintro rfl
      exact nomatch hnone.symm.trans h
  have hcases : ∀ blk n', update s.hdr s.arena.cur (some n) blk = some n' →
      (blk = s.arena.cur ∧ n' = n) ∨ s.hdr blk = some n' := by
    intro blk n' h
    by_cases hblk : blk = s.arena.cur
    · subst hblk
      rw [update_self] at h
      exact Or.inl ⟨rfl, (Option.some.inj h).symm⟩
    · rw [update_of_ne hblk] at h
      exact Or.inr h
  refine ⟨⟨⟨?_, hs.sound.distinct, ?_, ?_⟩, hbase ▸ hs.region, ⟨by dsimp only; omega, hupper, hlen⟩,
    ?_, ?_, ?_, hs.nodup⟩, fun o h => ?_, fun b hb heq => ?_⟩
  · intro b hb
    obtain ⟨blk, n', hptr, hn', hle⟩ := hs.sound.usable b hb
    exact ⟨blk, n', hptr, hold blk n' hn', hle⟩
  · intro blk n' h
    show a.base ≤ blk ∧ blk + n' ≤ a.base + _ ∧ blk + n' ≤ a.base + a.alloclen
    rcases hcases blk n' h with ⟨rfl, rfl⟩ | h
    · omega
    · have := hs.sound.inside blk n' h
      omega
  · intro blk n1 blk' n2 h h' hne
    rcases hcases blk n1 h with ⟨rfl, rfl⟩ | h1 <;>
      rcases hcases blk' n2 h' with ⟨rfl, rfl⟩ | h2
    · exact absurd rfl hne
    · exact Or.inr (hs.below _ _ h2)
    · exact Or.inl (hs.below _ _ h1)
    · exact hs.sound.apart _ _ _ _ h1 h2 hne
  · intro blk n' h
    show blk + n' ≤ a.cur
    rcases hcases blk n' h with ⟨rfl, rfl⟩ | h
    · omega
    · have := hs.below blk n' h
      omega
  · intro blk n' h
    rcases hcases blk n' h with ⟨rfl, rfl⟩ | h
    · exact ⟨h32, hclass⟩
    · exact hs.size blk n' h
  · intro o blk h
    obtain ⟨⟨n', hn', ho⟩, hunused⟩ := hs.listed o blk h
    exact ⟨⟨n', hold blk n' hn', ho⟩, hunused⟩
  · obtain ⟨⟨n', hn', -⟩, -⟩ := hs.listed o _ h
    exact nomatch hnone.symm.trans hn'
  · obtain ⟨blk, n', hptr, hn', -⟩ := hs.sound.usable b hb
    rw [toDataPtr_injective (hptr.symm.trans heq)] at hn'
    exact nomatch hnone.symm.trans hn'

/-! ### What the functions do -/

/-- A block that reaches beyond the range of the processor. -/
def Outside (s : Heap) : Prop :=
  ∃ blk n, s.hdr blk = some n ∧ s.arena.base + ummapUpperLen < blk + n

lemma Outside.not_sound (h : Outside s) (ht : Sound t) (hhdr : t.hdr = s.hdr)
    (harena : t.arena = s.arena) : False := by
  obtain ⟨blk, n, hn, hlt⟩ := h
  have := (ht.inside blk n (hhdr ▸ hn)).2.1
  rw [harena] at this
  omega

lemma not_sound_of_large (hp : (p, m) ∈ s.live) (hm : ummapUpperLen < m) : ¬ Sound s := by
  intro hs
  obtain ⟨blk, n, -, hn, hle⟩ := hs.usable _ hp
  have := hs.inside blk n hn
  dsimp only at hle
  omega

/-- New addresses are those behind the end of the range in use. If there is no space the result is
outside of the range, or there is none. -/
lemma uMmap_outcome (hs : Inv s) (hm : n % 8 = 0) (hn : n < word64) :
    wp (uMmap fails n) (fun va t => va = s.arena.cur ∧ ∃ a : Arena, t = { s with arena := a } ∧
        a.base = s.arena.base ∧
        (Space fails s n ∧ a.cur = s.arena.cur + n ∧ a.cur < a.base + a.alloclen ∧
            s.arena.alloclen ≤ a.alloclen ∨
          ¬ Space fails s n ∧ s.arena.base + ummapUpperLen < s.arena.cur + n))
      ⟨fun _ _ => False, fun _ _ => ¬ Space fails s n⟩ s := by
  obtain ⟨hc1, hc2, hc3⟩ := hs.cur
  have hreg := hs.region
  have hn : n < 2 ^ 64 := hn
  have hup : ummapUpperLen < 2 ^ 36 := by decide
  have hw : word64 = 2 ^ 64 := rfl
  have hreq : ((s.arena.cur + n) % word64 + (word64 - s.arena.base)) % word64 =
      (s.arena.cur - s.arena.base + n) % 2 ^ 64 := by
    rw [hw]
    omega
  rw [uMmap, roundup_eq hm hn, ummapAddrAlloc, wp_bind, wp_state, wp_bind, wp_put, hreq]
  split_ifs with hlt
  · -- the segment is long enough
    refine ⟨rfl, _, rfl, rfl, ?_⟩
    by_cases hfit : s.arena.cur + n ≤ s.arena.base + ummapUpperLen
    · refine Or.inl ⟨⟨hfit, fun h => ?_⟩, ?_, ?_, Nat.le_refl _⟩
      · rw [Nat.mod_eq_of_lt (by omega)] at hlt
        omega
      · exact Nat.mod_eq_of_lt (by rw [hw]; omega)
      · rw [Nat.mod_eq_of_lt (by omega)] at hlt
        show (s.arena.cur + n) % word64 < _
        rw [Nat.mod_eq_of_lt (by rw [hw]; omega)]
        show _ < s.arena.base + s.arena.alloclen
        omega
    · exact Or.inr ⟨fun h => hfit h.1, Nat.not_le.mp hfit⟩
  · rw [wp_bind, wp_require]
    refine ⟨fun hle => ?_, fun hgt h => hgt ?_⟩
    · rw [wp_bind, wp_require]
      refine ⟨fun hfails => ⟨rfl, _, rfl, rfl, ?_⟩, fun hfails h => hfails (h.2 ?_)⟩
      · by_cases hfit : s.arena.cur + n ≤ s.arena.base + ummapUpperLen
        · rw [Nat.mod_eq_of_lt (by omega)] at hlt ⊢
          have hgrow := growLen_gt (s.arena.cur - s.arena.base + n)
            (s.arena.cur - s.arena.base + n + 1 - s.arena.alloclen) s.arena.alloclen (by omega)
            (by omega)
          refine Or.inl ⟨⟨hfit, fun _ => hfails⟩, ?_, ?_, ?_⟩
          · exact Nat.mod_eq_of_lt (by rw [hw]; omega)
          · show (s.arena.cur + n) % word64 < _
            rw [Nat.mod_eq_of_lt (by rw [hw]; omega)]
            dsimp only
            omega
          · dsimp only
            omega
        · exact Or.inr ⟨fun h => hfit h.1, Nat.not_le.mp hfit⟩
      · have := h.1
        rw [Nat.mod_eq_of_lt (by omega)] at hlt
        omega
    · have := h.1
      rw [Nat.mod_eq_of_lt (by omega)]
      omega

/-- A block in limbo, and all that was there before. -/
structure Taken (s t : Heap) (blk n : ℕ) : Prop where
  inv : Inv t
  limbo : Limbo t blk
  hdr : t.hdr blk = some n
  keeps : ∀ blk' n', s.hdr blk' = some n' → t.hdr blk' = some n'
  mem : t.mem = s.mem
  live : t.live = s.live

lemma findFree_eq_some (hs : Inv s) (h : findFree s m = some blk) :
    blk ∈ s.lists (getOrder m) ∧ ∃ n, s.hdr blk = some n ∧ m ≤ n := by
  rw [findFree] at h
  split_ifs at h with hbig
  · have hmem := mem_of_find?_eq_some h
    obtain ⟨⟨n, hn, -⟩, -⟩ := hs.listed _ _ hmem
    have hfound := find?_some h
    have hle : m ≤ (s.hdr blk).getD 0 := of_decide_eq_true hfound
    rw [hn] at hle
    exact ⟨hbig ▸ hmem, n, hn, hle⟩
  · have hmem := mem_of_mem_head? h
    obtain ⟨⟨n, hn, ho⟩, -⟩ := hs.listed _ _ hmem
    refine ⟨hmem, n, hn, ?_⟩
    rw [(hs.size blk n hn).2 (ho ▸ hbig), ho]
    exact le_class hbig

lemma malloc_outcome (hs : Inv s) (hpos : n ≠ 0) (hn : n + 32 ≤ word64) :
    wp (malloc fails n) (fun p t => ∃ blk k, p = toDataPtr blk ∧
        (Served fails s (newSize n) ∧ newSize n ≤ k ∧ Taken s t blk k ∨
          ¬ Served fails s (newSize n) ∧ Outside t ∧
            ∀ blk' n', s.hdr blk' = some n' → t.hdr blk' = some n'))
      ⟨fun _ _ => False, fun _ _ => ¬ Served fails s (newSize n)⟩ s := by
  rw [malloc, if_neg hpos, wp_bind, wp_state]
  have hbig := le_newSize hn
  have h32 : 32 ≤ newSize n := by
    have := newSize_mod n
    omega
  cases hfree : findFree s (newSize n) with
  | some blk =>
    obtain ⟨hmem, k, hk, hle⟩ := findFree_eq_some hs hfree
    obtain ⟨hinv, hlimbo⟩ := hs.unlist hmem
    refine ⟨blk, k, rfl, Or.inl ⟨Or.inl (by rw [hfree]; rfl), hle, hinv, hlimbo, hk, ?_, rfl, rfl⟩⟩
    exact fun _ _ h => h
  | none =>
    have hserved : Served fails s (newSize n) ↔ Space fails s (blockSize (newSize n)) := by
      rw [Served, hfree]
      exact ⟨fun h => h.elim (fun h => nomatch h) id, Or.inr⟩
    have hle := le_blockSize (newSize n)
    rw [hserved]
    show wp (uMmap fails (blockSize (newSize n)) >>= _) _ _ _
    rw [wp_bind]
    refine wp_mono (uMmap_outcome hs (blockSize_mod (newSize_mod n))
      (blockSize_lt (newSize_lt n))) ?_ (fun _ _ => id)
    rintro _ _ ⟨rfl, a, rfl, hbase, hcase⟩
    rw [wp_bind, setHdr, wp_change, wp_bind, wp_require]
    refine ⟨fun _ => ?_, fun h => absurd (by omega) h⟩
    refine ⟨s.arena.cur, blockSize (newSize n), rfl, ?_⟩
    have hkeep : ∀ blk' n', s.hdr blk' = some n' →
        update s.hdr s.arena.cur (some (blockSize (newSize n))) blk' = some n' := by
      intro blk' n' h
      rw [update_of_ne]
      · exact h
      · rintro rfl
        have := hs.below _ _ h
        have := (hs.size _ _ h).1
        omega
    rcases hcase with ⟨hspace, hcur, hlen, hlen'⟩ | ⟨hspace, hout⟩
    · obtain ⟨hinv, hlimbo⟩ := hs.newBlock hbase hcur (by rw [hcur, hbase]; exact hspace.1) hlen
        hlen' (h32.trans hle) blockSize_class
      exact Or.inl ⟨hspace, hle, hinv, hlimbo, update_self _ _ _, hkeep, rfl, rfl⟩
    · refine Or.inr ⟨hspace, ⟨s.arena.cur, blockSize (newSize n), update_self _ _ _, ?_⟩, hkeep⟩
      show a.base + _ < _
      rw [hbase]
      exact hout

lemma malloc_ne_zero (hpos : n ≠ 0) :
    wp (malloc fails n) (fun p _ => p ≠ 0) ⟨fun _ _ => False, fun _ _ => True⟩ s := by
  rw [malloc, if_neg hpos, wp_bind, wp_state]
  cases findFree s (newSize n) with
  | some blk => exact Nat.succ_ne_zero _
  | none =>
    show wp (uMmap fails (blockSize (newSize n)) >>= _) _ _ _
    have hmap : wp (uMmap fails (blockSize (newSize n))) (fun _ _ => True)
        ⟨fun _ _ => False, fun _ _ => True⟩ s := by
      rw [uMmap, ummapAddrAlloc, wp_bind, wp_state, wp_bind, wp_put]
      split_ifs
      · trivial
      · simp
    rw [wp_bind]
    refine wp_mono hmap ?_ fun _ _ => id
    intro blk t _
    rw [wp_bind, setHdr, wp_change, wp_bind, wp_require]
    exact ⟨fun _ => Nat.succ_ne_zero _, fun _ => trivial⟩

/-! ### The calls -/

/-- What a call comes to: it is one that is right, and then everything is as it should be, or it is
not. -/
def Comes (s : Heap) (c : Call) (p : ℕ) (t : Heap) : Prop :=
  c.Ok s ∧ Inv t ∧ c.Right s p t ∨ ¬ c.Ok s ∧ ¬ (Sound t ∧ c.Right s p t)

lemma wp_hand (hp : p ≠ 0) : wp (hand p n) Q X s ↔ Q () { s with live := (p, n) :: s.live } := by
  rw [hand, wp_change, if_neg hp]

lemma toDataPtr_ne_zero (blk : ℕ) : toDataPtr blk ≠ 0 := Nat.succ_ne_zero _

lemma upper_lt (h : ¬ n + 32 ≤ word64) : ummapUpperLen < n := by
  have h : ¬ n + 32 ≤ 2 ^ 64 := h
  have hup : ummapUpperLen < 2 ^ 36 := by decide
  omega

/-- What `malloc` returns can be handed out, whatever is written to it, unless the call is not one
that is served. -/
lemma malloc_hands (hs : Inv s) (h0 : n ≠ 0) :
    wp (malloc fails n) (fun p t => p ≠ 0 ∧ ∀ mem,
        MallocOk fails s n ∧ Inv { t with mem := mem, live := (p, n) :: t.live } ∨
        ¬ MallocOk fails s n ∧ ¬ Sound { t with mem := mem, live := (p, n) :: t.live })
      ⟨fun _ _ => False, fun _ _ => ¬ MallocOk fails s n⟩ s := by
  by_cases hn : n + 32 ≤ word64
  · refine wp_imp (malloc_outcome hs h0 hn) ?_ (fun _ _ => id)
      fun _ _ h hok => hok.elim h0 fun hok => h hok.2
    rintro _ t ⟨blk, k, rfl, ⟨hserved, hle, ht⟩ | ⟨hserved, hout, -⟩⟩ <;>
      refine ⟨toDataPtr_ne_zero blk, fun mem => ?_⟩
    · have hfit : blkHdrSize + n ≤ k := by
        have := le_newSize hn
        have hh : blkHdrSize = 24 := rfl
        omega
      exact Or.inl ⟨Or.inr ⟨hn, hserved⟩,
        (ht.inv.withMem mem).handed (ht.limbo.withMem mem) ht.hdr hfit⟩
    · exact Or.inr ⟨fun hok => hok.elim h0 fun hok => hserved hok.2,
        fun h => hout.not_sound h rfl rfl⟩
  · have hnot : ¬ MallocOk fails s n := fun hok => hok.elim h0 fun hok => hn hok.1
    exact wp_imp (malloc_ne_zero h0) (fun p t hp => ⟨hp, fun mem => Or.inr ⟨hnot,
      not_sound_of_large mem_cons_self (upper_lt hn)⟩⟩) (fun _ _ => id) fun _ _ _ => hnot

lemma malloc_comes (hs : Inv s) :
    wp (Call.malloc fails n).run (Comes s (.malloc fails n))
      ⟨fun _ _ => False, fun _ _ => ¬ (Call.malloc fails n).Ok s⟩ s := by
  rw [Call.run, wp_bind]
  by_cases h0 : n = 0
  · subst h0
    exact Or.inl ⟨Or.inl rfl, hs, trivial⟩
  refine wp_post (malloc_hands hs h0) fun p t h => ?_
  rw [wp_bind, wp_hand h.1]
  exact (h.2 t.mem).imp (fun h => ⟨h.1, h.2, trivial⟩) fun h => ⟨h.1, fun hr => h.2 hr.1⟩

lemma zeroed_self (hi : i < n) : zeroed mem p n (p + i) = 0 :=
  if_pos ⟨Nat.le_add_right p i, Nat.add_lt_add_left hi p⟩

lemma calloc_comes {nmemb size : ℕ} (hs : Inv s) :
    wp (Call.calloc fails nmemb size).run (Comes s (.calloc fails nmemb size))
      ⟨fun _ _ => False, fun _ _ => ¬ (Call.calloc fails nmemb size).Ok s⟩ s := by
  rw [Call.run, wp_bind, calloc]
  by_cases h0 : nmemb * size % word64 = 0
  · rw [if_pos h0]
    exact Or.inl ⟨Or.inl h0, hs, fun h => absurd rfl h⟩
  rw [if_neg h0, wp_bind]
  by_cases hlt : nmemb * size < word64
  · rw [Nat.mod_eq_of_lt hlt] at h0 ⊢
    have hok : (Call.calloc fails nmemb size).Ok s ↔ MallocOk fails s (nmemb * size) := by
      refine ⟨fun h => h.elim (fun h => absurd ?_ h0) And.right, fun h => Or.inr ⟨hlt, h⟩⟩
      rwa [Nat.mod_eq_of_lt hlt] at h
    refine wp_imp (malloc_hands hs h0) (fun p t h => ?_) (fun _ _ => id)
      fun _ _ h hc => h (hok.mp hc)
    rw [wp_bind, memset, wp_change, wp_pure, wp_bind, wp_hand h.1]
    exact (h.2 _).imp (fun h => ⟨hok.mpr h.1, h.2, fun _ i hi => zeroed_self hi⟩)
      fun h => ⟨fun hc => h.1 (hok.mp hc), fun hr => h.2 hr.1⟩
  · have hnot : ¬ (Call.calloc fails nmemb size).Ok s := fun hok =>
      hok.elim h0 fun hok => hlt hok.1
    refine wp_imp (malloc_ne_zero h0) ?_ (fun _ _ => id) fun _ _ _ => hnot
    intro p t hp
    rw [wp_bind, memset, wp_change, wp_pure, wp_bind, wp_hand hp]
    refine Or.inr ⟨hnot, fun h => not_sound_of_large mem_cons_self ?_ h.1⟩
    have hup : ummapUpperLen < word64 := by decide
    omega

lemma wp_getHdr {Q : ℕ → Heap → Prop} (h : s.hdr (toBlkHdr p) = some n) :
    wp (getHdr p) Q X s ↔ Q n s := by
  rw [getHdr, wp_bind, wp_state, h]
  rfl

lemma wp_free (hp : p ≠ 0) (h : s.hdr (toBlkHdr p) = some n) : wp (free p) Q X s ↔ Q () { s with
      lists := update s.lists (getOrder n) (toBlkHdr p :: s.lists (getOrder n)) } := by
  rw [free, if_neg hp, wp_bind, wp_getHdr h]
  rfl

lemma free_comes (hs : Inv s) (hl : (Call.free p).Legal s) :
    wp (Call.free p).run (Comes s (.free p))
      ⟨fun _ _ => False, fun _ _ => ¬ (Call.free p).Ok s⟩ s := by
  rw [Call.run, wp_bind]
  rcases hl with rfl | ⟨m, hm⟩
  · have hdrop : s.dropped 0 = s := by
      have : ∀ b ∈ s.live, b.1 ≠ 0 := by
        intro b hb
        obtain ⟨blk, n, hptr, -⟩ := hs.sound.usable b hb
        rw [hptr]
        exact toDataPtr_ne_zero blk
      rw [Heap.dropped, filter_eq_self.mpr fun b hb => decide_eq_true (this b hb)]
    rw [free, if_pos rfl, wp_pure, wp_bind, wp_change, hdrop]
    exact Or.inl ⟨trivial, hs, trivial⟩
  · obtain ⟨hinv, blk, n, rfl, hn, -, hlimbo⟩ := hs.drop hm
    have hlt := hs.hdr_lt hn
    have hsize := (hs.size blk n hn).1
    have hback : toBlkHdr (toDataPtr blk) = blk := toBlkHdr_toDataPtr (by omega)
    rw [wp_free (toDataPtr_ne_zero blk) (by rw [hback]; exact hn), hback]
    exact Or.inl ⟨trivial, hinv.list hlimbo hn, trivial⟩

lemma copied_self {q : ℕ} (hi : i < n) : copied mem p q n (p + i) = mem (q + i) := by
  rw [copied, if_pos ⟨Nat.le_add_right p i, Nat.add_lt_add_left hi p⟩, Nat.add_sub_cancel_left]

lemma Taken.moved {new k k' : ℕ} (ht : Taken s t new k') (hm : (toDataPtr blk, m) ∈ s.live)
    (hk : s.hdr blk = some k) (hfit : blkHdrSize + n ≤ k') (mem : ℕ → UInt8) :
    Inv { ({ t with
        mem := mem
        lists := update t.lists (getOrder k) (blk :: t.lists (getOrder k)) } :
          Heap).dropped (toDataPtr blk) with
      live := (toDataPtr new, n) :: t.live.filter fun b => b.1 ≠ toDataPtr blk } := by
  rw [← ht.live] at hm
  obtain ⟨hinv, blk', -, hptr, -, -, hlimbo⟩ := (ht.inv.withMem mem).drop hm
  obtain rfl := toDataPtr_injective hptr
  have hne : new ≠ blk := by
    rintro rfl
    exact ht.limbo.unused _ hm rfl
  refine (hinv.list hlimbo (ht.keeps blk k hk)).handed ⟨fun o h => ?_, fun b hb => ?_⟩ ht.hdr hfit
  · dsimp only at h
    by_cases ho : o = getOrder k
    · subst ho
      rw [update_self] at h
      exact (mem_cons.mp h).elim hne (ht.limbo.unlisted _)
    · rw [update_of_ne ho] at h
      exact ht.limbo.unlisted o h
  · exact ht.limbo.unused b (mem_of_mem_filter hb)

lemma realloc_comes (hs : Inv s) (hl : (Call.realloc fails p n).Legal s) :
    wp (Call.realloc fails p n).run (Comes s (.realloc fails p n))
      ⟨fun _ _ => False, fun _ _ => ¬ (Call.realloc fails p n).Ok s⟩ s := by
  obtain ⟨hlt64, hl⟩ := hl
  rw [Call.run, wp_bind, realloc]
  rcases hl with rfl | ⟨m, hm⟩
  · -- the header of the null pointer is read
    have hnone : s.hdr (toBlkHdr 0) = none := by
      cases h : s.hdr (toBlkHdr 0) with
      | none => rfl
      | some k =>
        have := hs.hdr_lt h
        have hback : toBlkHdr 0 = 2 ^ 64 - 24 := rfl
        omega
    rw [wp_bind, getHdr, wp_bind, wp_state, hnone]
    exact fun hok => hok.1 rfl
  · obtain ⟨hinv, blk, k, rfl, hk, hmk, hlimbo⟩ := hs.drop hm
    have hlt := hs.hdr_lt hk
    have hsize := (hs.size blk k hk).1
    have hback : toBlkHdr (toDataPtr blk) = blk := toBlkHdr_toDataPtr (by omega)
    have hp0 := toDataPtr_ne_zero blk
    have hk' : s.hdr (toBlkHdr (toDataPtr blk)) = some k := by rw [hback]; exact hk
    have hh : blkHdrSize = 24 := rfl
    -- the pointer was handed out once
    have honce : ∀ m', (toDataPtr blk, m') ∈ s.live → m' = m := fun m' hm' => by
      by_contra hne
      have : Std.Symm (fun a b : ℕ × ℕ => a.1 ≠ b.1) := ⟨fun _ _ h => h.symm⟩
      exact hs.sound.distinct.forall hm' hm (fun heq => hne (Prod.mk.inj heq).2) rfl
    have hok : (Call.realloc fails (toDataPtr blk) n).Ok s ↔ n + 32 ≤ word64 ∧
        (newSize n ≤ k ∨ Served fails s (newSize n)) := by
      rw [Call.Ok, hk']
      exact ⟨And.right, fun h => ⟨hp0, h⟩⟩
    rw [wp_bind, wp_getHdr hk']
    split_ifs with hle
    · -- the block is long enough
      rw [wp_pure, wp_bind, wp_change, wp_bind, wp_hand hp0]
      by_cases hn : n + 32 ≤ word64
      · have hfit : blkHdrSize + n ≤ k := by
          have := le_newSize hn
          omega
        exact Or.inl ⟨hok.mpr ⟨hn, Or.inl hle⟩, hinv.handed hlimbo hk hfit, fun h => absurd h hp0,
          fun _ _ _ _ => rfl⟩
      · exact Or.inr ⟨fun h => hn (hok.mp h).1,
          fun h => not_sound_of_large mem_cons_self (upper_lt hn) h.1⟩
    · have hn : n + 32 ≤ word64 := by
        by_contra hn
        have := newSize_le hlt64 hn
        omega
      have h0 : n ≠ 0 := by
        rintro rfl
        rw [show newSize 0 = 24 from rfl] at hle
        omega
      rw [wp_bind]
      refine wp_imp (malloc_outcome hs h0 hn) ?_ (fun _ _ => id)
        fun _ _ h hc => (hok.mp hc).2.elim hle h
      rintro _ t ⟨new, k', rfl, ⟨hserved, hle', ht⟩ | ⟨hserved, hout, hkeep⟩⟩
      · rw [wp_bind, memcpy, wp_change, wp_bind,
          wp_free (s := { t with mem := _ }) hp0 (by rw [hback]; exact ht.keeps blk k hk), wp_pure,
          wp_bind, wp_change, wp_bind, wp_hand (toDataPtr_ne_zero new), hback]
        have hfit : blkHdrSize + n ≤ k' := by
          have := le_newSize hn
          omega
        refine Or.inl
          ⟨hok.mpr ⟨hn, Or.inr hserved⟩, ?_, fun h => absurd h hp0, fun m' hm' i hi => ?_⟩
        · exact ht.moved hm hk hfit _
        · obtain rfl := honce m' hm'
          have hi' : i < k - blkHdrSize := by omega
          show copied t.mem _ _ _ _ = _
          rw [copied_self hi', ht.mem]
      · rw [wp_bind, memcpy, wp_change, wp_bind,
          wp_free (s := { t with mem := _ }) hp0 (by rw [hback]; exact hkeep blk k hk), wp_pure,
          wp_bind, wp_change, wp_bind, wp_hand (toDataPtr_ne_zero new)]
        exact Or.inr ⟨fun h => (hok.mp h).2.elim hle hserved, fun h => hout.not_sound h.1 rfl rfl⟩

lemma call_comes (hs : Inv s) : ∀ c : Call, c.Legal s →
    wp c.run (Comes s c) ⟨fun _ _ => False, fun _ _ => ¬ c.Ok s⟩ s
  | .malloc _ _, _ => malloc_comes hs
  | .calloc _ _ _, _ => calloc_comes hs
  | .realloc _ _ _, hl => realloc_comes hs hl
  | .free _, hl => free_comes hs hl
  | .store _ _, _ => Or.inl ⟨trivial, hs.withMem _, trivial⟩

lemma inv_init (h : heapSystem.init s) : Inv s := by
  obtain ⟨pid, hpid, mem, rfl⟩ := h
  have hpid : pid < 16 := hpid
  have hup : ummapUpperLen = 2 ^ 35 := rfl
  have hstart : ummapstart < 2 ^ 47 := by decide
  have hinit : ummapInitLen = 2 ^ 32 := rfl
  refine ⟨⟨fun _ h => (nomatch h), List.Pairwise.nil, fun _ _ h => (nomatch h),
    fun _ _ _ _ h => (nomatch h)⟩, ?_, ?_, fun _ _ h => (nomatch h), fun _ _ h => (nomatch h),
    fun _ _ h => (nomatch h), fun _ => nodup_nil⟩
  · dsimp only
    rw [hup]
    omega
  · dsimp only
    omega

/-- **The simple allocator hands out disjoint blocks of sufficient size, exactly as long as sizes do
not wrap around and there is space.** In every run of such calls the blocks are as they should be,
and in every state of such a run a legal call returns and does what it should exactly if it is one
of them. -/
theorem heap_sound_iff (hr : heapSystem.Reach (fun s c => c.Legal s ∧ c.Ok s) s) :
    Sound s ∧ ∀ c : Call, c.Legal s →
      ((∃ p t, c.run s = (.ok p, t) ∧ Sound t ∧ c.Right s p t) ↔ c.Ok s) := by
  have hinv : Inv s := by
    refine hr.invariant (fun s => inv_init) fun s c t hs hok hnext => ?_
    refine next_of_wp (wp_mono (call_comes hs c hok.1) ?_ (fun _ _ => False.elim)) hnext
    rintro p u (⟨-, hu, -⟩ | ⟨hnot, -⟩)
    · exact hu
    · exact absurd hok.2 hnot
  refine ⟨hinv.sound, fun c hl => ⟨?_, fun hok => ?_⟩⟩
  · rintro ⟨p, t, hrun, hgood⟩
    rcases wp_ok (call_comes hinv c hl) hrun with ⟨hok, -⟩ | ⟨-, hnot⟩
    · exact hok
    · exact absurd hgood hnot
  · refine ok_of_never (wp_imp (call_comes hinv c hl) ?_ (fun _ _ => id) fun _ _ h => h hok)
    rintro p t (⟨-, ht, hright⟩ | ⟨hnot, -⟩)
    · exact ⟨ht.sound, hright⟩
    · exact absurd hok hnot

def fresh : Heap := { arena := { base := ummapstart } }

def hundred : Heap := ((Call.malloc false 100).run fresh).2

theorem heap_sound_iff_hundred :
    heapSystem.Reach (fun s c => c.Legal s ∧ c.Ok s) hundred ∧
      hundred.live = [(ummapstart + 24, 100)] ∧
      ∃ p t, (Call.realloc false (ummapstart + 24) 200).run hundred = (.ok p, t) ∧ Sound t ∧
        (Call.realloc false (ummapstart + 24) 200).Right hundred p t := by
  have hlegal : (Call.malloc false 100).Legal fresh := (by decide : 100 < word64)
  have hs : heapSystem.Reach (fun s c => c.Legal s ∧ c.Ok s) hundred :=
    (System.Reach.start (S := heapSystem) ⟨0, by decide, _, rfl⟩).next (s := fresh)
      (a := .malloc false 100) ⟨hlegal, by decide +kernel⟩ rfl
  have hlive : hundred.live = [(ummapstart + 24, 100)] := by decide +kernel
  have hlegal' : (Call.realloc false (ummapstart + 24) 200).Legal hundred := by
    refine ⟨by decide, Or.inr ⟨100, ?_⟩⟩
    rw [hlive]
    exact mem_cons_self
  exact ⟨hs, hlive, ((heap_sound_iff hs).2 _ hlegal').mpr (by decide +kernel)⟩

/-- **A block of 32 bytes for almost all of memory.** The size with the header wraps around. -/
theorem malloc_wraps :
    ((Call.malloc false (2 ^ 64 - 1)).run.result fresh).map
        (fun r => (r.1, r.2.hdr ummapstart)) = some (ummapstart + 24, some 32) ∧
      ¬ ∃ p t, (Call.malloc false (2 ^ 64 - 1)).run fresh = (.ok p, t) ∧ Sound t := by
  refine ⟨by decide +kernel, ?_⟩
  rintro ⟨p, t, hrun, ht⟩
  have hlive : ∀ r ∈ (Call.malloc false (2 ^ 64 - 1)).run.result fresh,
      (ummapstart + 24, 2 ^ 64 - 1) ∈ r.2.live := by decide +kernel
  exact not_sound_of_large (hlive _ (result_eq_some.mpr hrun)) (by decide) ht

end Corey.Simalloc
