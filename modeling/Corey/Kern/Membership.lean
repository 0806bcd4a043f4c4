import Corey.Kern.Lookup
import Corey.Kern.MapTables

/-!
Membership in a share (`kern/share.c`).

A share knows its members by the blobs in its map. An import takes a blob before it looks for the
object, and gives it back if the object is there already; a removal lowers the count of the
object before it takes the blob of the action that is to give up the reference.
-/

namespace Corey.Kern

open Function Corey.Comp Corey.Mem Machine List

variable {sh : Kobj} {s s' : Machine} {S S' : Share} {w w' : Forest TreeId}
  {Q : Unit → Machine → Prop}

/-! ### The content of a share -/

/-- The machine with other memory and another content of the share. -/
def Machine.setShare (sh : Kobj) (S : Share) (w : Forest TreeId) (s : Machine) : Machine :=
  { s with forest := w, obj := update s.obj sh { s.obj sh with sh := S } }

lemma setShare_self : (s.setShare sh S w).obj sh = { s.obj sh with sh := S } :=
  update_self ..

lemma setShare_same : s.setShare sh (s.obj sh).sh w = { s with forest := w } := by
  have hobj : update s.obj sh (s.obj sh) = s.obj := update_eq_self sh s.obj
  show { s with forest := w, obj := update s.obj sh (s.obj sh) } = _
  rw [hobj]

lemma setShare_eq_self : s.setShare sh (s.obj sh).sh s.forest = s := setShare_same

lemma setShare_kin (p : Kobj) : Kin (s.obj p) ((s.setShare sh S w).obj p) :=
  kin_modObj (f := fun o => { o with sh := S }) sh p (kin_refl _)

lemma setShare_koRef (p : Kobj) : ((s.setShare sh S w).obj p).koRef = (s.obj p).koRef :=
  modObj_eq (g := Kobject.koRef) (f := fun o => { o with sh := S }) rfl p

section

variable {α : Type} {X : Exits Errno Machine} {m : MapM TreeId Blob α}

lemma wp_modShare {f : Share → Share} :
    wp (modShare sh f) Q X (s.setShare sh S w) ↔ Q () (s.setShare sh (f S) w) := by
  have hset : modObj sh (fun o => { o with sh := f o.sh }) (s.setShare sh S w) =
      s.setShare sh (f S) w := by
    simp only [modObj, setShare, update_self, update_idem]
  rw [modShare, wp_change, hset]

lemma wp_onShareMap {Q : α → Machine → Prop} : wp (onShareMap sh m) Q X (s.setShare sh S w) ↔
      wp m (fun a r => Q a (s.setShare sh { S with shKobjectMap := r.1 } r.2))
        (X.comap fun r => s.setShare sh { S with shKobjectMap := r.1 } r.2)
        (S.shKobjectMap, w) := by
  have hset : ∀ r : Map Blob × Forest TreeId,
      modObj sh (fun o => { o with sh := { o.sh with shKobjectMap := r.1 } })
        { s.setShare sh S w with forest := r.2 } =
      s.setShare sh { S with shKobjectMap := r.1 } r.2 := by
    intro r
    simp only [modObj, setShare, update_self, update_idem]
  rw [onShareMap, wp_zoom]
  simp only [hset, setShare_self]
  rfl

lemma wp_onShareMap_self {Q : α → Machine → Prop} : wp (onShareMap sh m) Q X s ↔
      wp m (fun a r => Q a (s.setShare sh { (s.obj sh).sh with shKobjectMap := r.1 } r.2))
        (X.comap fun r => s.setShare sh { (s.obj sh).sh with shKobjectMap := r.1 } r.2)
        ((s.obj sh).sh.shKobjectMap, s.forest) := by
  have hself : wp (onShareMap sh m) Q X (s.setShare sh (s.obj sh).sh s.forest) ↔ _ := wp_onShareMap
  rwa [setShare_eq_self] at hself

lemma wp_onForest_share {m : Forest.ForestM TreeId α} {Q : α → Machine → Prop} :
    wp (onForest m) Q X (s.setShare sh S w) ↔
      wp m (fun a f => Q a (s.setShare sh S f)) (X.comap fun f => s.setShare sh S f) w :=
  wp_onForest

end

/-! ### Blobs -/

variable {used used' : Blob → Prop} {b : Blob} {c n : ℕ}

/-- The blobs of the free lists are free, each is on one list once, and all blobs there are come
from pages of the share. -/
structure BlobsFree (S : Share) (used : Blob → Prop) : Prop where
  nodup : ∀ c, (S.free c).Nodup
  apart : ∀ b c d, b ∈ S.free c → b ∈ S.free d → c = d
  unused : ∀ b c, b ∈ S.free c → ¬ used b
  old : ∀ b, used b ∨ (∃ c, b ∈ S.free c) → b.idx < S.npages b.cpu * nShareblobPerPage

def Share.addPage (S : Share) (c : ℕ) : Share :=
  { S with
    npages := update S.npages c (S.npages c + 1)
    free := update S.free c (blobsOfPage c (S.npages c) ++ S.free c) }

lemma mem_blobsOfPage : b ∈ blobsOfPage c n ↔ b.cpu = c ∧ n * nShareblobPerPage ≤ b.idx ∧
        b.idx < n * nShareblobPerPage + nShareblobPerPage := by
  simp only [blobsOfPage, mem_map, mem_reverse, mem_range]
  constructor
  · rintro ⟨i, hi, rfl⟩
    exact ⟨rfl, by simp only; omega, by simp only; omega⟩
  · rintro ⟨rfl, hge, hlt⟩
    refine ⟨b.idx - n * nShareblobPerPage, by omega, ?_⟩
    rw [Nat.add_sub_cancel' hge]

lemma blobsOfPage_nodup : (blobsOfPage c n).Nodup := by
  refine List.Nodup.map (fun i j heq => ?_) (nodup_reverse.mpr nodup_range)
  have hidx := congrArg Blob.idx heq
  simpa using hidx

namespace BlobsFree

lemma mono (h : BlobsFree S used) (hu : ∀ b, used' b → used b) : BlobsFree S used' :=
  ⟨h.nodup, h.apart, fun b c hb hub => h.unused b c hb (hu b hub),
    fun b hb => h.old b (hb.imp_left (hu b))⟩

lemma of_empty (h : ∀ c, S.free c = []) (hu : ∀ b, ¬ used b) : BlobsFree S used := by
  have hno : ∀ b c, b ∉ S.free c := fun b c hb => not_mem_nil (h c ▸ hb)
  refine ⟨fun c => h c ▸ nodup_nil, fun b c _ hb => absurd hb (hno b c),
    fun b c hb => absurd hb (hno b c), fun b hb => ?_⟩
  rcases hb with hub | ⟨c, hc⟩
  · exact absurd hub (hu b)
  · exact absurd hc (hno b c)

lemma congr (h : BlobsFree S used) (hf : S'.free = S.free) (hn : S'.npages = S.npages) :
    BlobsFree S' used := by
  obtain ⟨h1, h2, h3, h4⟩ := h
  rw [← hf] at h1 h2 h3 h4
  rw [← hn] at h4
  exact ⟨h1, h2, h3, h4⟩

lemma relist {l : List Blob} {n : ℕ → ℕ} (h : BlobsFree S used) (hn : l.Nodup)
    (hl : ∀ b ∈ l, b ∈ S.free c ∨ ∀ d, b ∉ S.free d)
    (hu : ∀ b, used' b → b ∉ l ∧ ∀ d, d ≠ c → b ∉ S.free d)
    (hold : ∀ b, used' b ∨ b ∈ l ∨ (∃ d, b ∈ S.free d) → b.idx < n b.cpu * nShareblobPerPage) :
    BlobsFree { S with free := update S.free c l, npages := n } used' := by
  have hsub : ∀ b d, b ∈ update S.free c l d → b ∈ l ∧ d = c ∨ b ∈ S.free d ∧ d ≠ c := by
    intro b d hb
    by_cases hd : d = c
    · subst hd
      rw [update_self] at hb
      exact .inl ⟨hb, rfl⟩
    · rw [update_of_ne hd] at hb
      exact .inr ⟨hb, hd⟩
  -- a blob of the new list is on no other
  have hone : ∀ b d, b ∈ l → d ≠ c → b ∉ S.free d := fun b d hb hd hin =>
    (hl b hb).elim (fun hc => hd (h.apart b d c hin hc)) fun hno => hno d hin
  refine ⟨fun d => ?_, fun b d e hd he => ?_, fun b d hd hub => ?_, fun b hb => hold b ?_⟩
  · exact (forall_update_iff S.free fun _ l => l.Nodup).mpr ⟨hn, fun d _ => h.nodup d⟩ d
  · rcases hsub b d hd with ⟨h1, hdc⟩ | ⟨h1, hdc⟩ <;> rcases hsub b e he with ⟨h2, hec⟩ | ⟨h2, hec⟩
    · rw [hdc, hec]
    · exact absurd h2 (hone b e h1 hec)
    · exact absurd h1 (hone b d h2 hdc)
    · exact h.apart b d e h1 h2
  · rcases hsub b d hd with ⟨hb, -⟩ | ⟨hb, hdc⟩
    · exact (hu b hub).1 hb
    · exact (hu b hub).2 d hdc hb
  · rcases hb with hub | ⟨d, hd⟩
    · exact .inl hub
    · exact .inr ((hsub b d hd).imp And.left fun hin => ⟨d, hin.1⟩)

lemma take {l : List Blob} (h : BlobsFree S used) (hl : S.free c = b :: l) :
    ¬ used b ∧ BlobsFree { S with free := update S.free c l } fun b' => used b' ∨ b' = b := by
  have hin : ∀ b' ∈ b :: l, b' ∈ S.free c := fun b' hb' => hl ▸ hb'
  have hb := hin b mem_cons_self
  have hnd := h.nodup c
  rw [hl, nodup_cons] at hnd
  refine ⟨h.unused b c hb, h.relist hnd.2 (fun b' hb' => .inl (hin b' (.tail _ hb'))) ?_ ?_⟩
  · rintro b' (hu | rfl)
    · exact ⟨fun hb' => h.unused b' c (hin b' (.tail _ hb')) hu, fun d _ hd => h.unused b' d hd hu⟩
    · exact ⟨hnd.1, fun d hd hb' => hd (h.apart b' d c hb' hb)⟩
  · rintro b' ((hu | rfl) | hb' | hb')
    · exact h.old b' (.inl hu)
    · exact h.old b' (.inr ⟨c, hb⟩)
    · exact h.old b' (.inr ⟨c, hin b' (.tail _ hb')⟩)
    · exact h.old b' (.inr hb')

lemma give (h : BlobsFree S fun b' => used b' ∨ b' = b) (hb : ¬ used b) (c : ℕ) :
    BlobsFree { S with free := update S.free c (b :: S.free c) } used := by
  have hout : ∀ d, b ∉ S.free d := fun d hd => h.unused b d hd (.inr rfl)
  refine h.relist (nodup_cons.mpr ⟨hout c, h.nodup c⟩) (fun b' hb' => ?_) (fun b' hu => ?_)
    fun b' hb' => ?_
  · rcases mem_cons.mp hb' with rfl | hin
    · exact .inr hout
    · exact .inl hin
  · refine ⟨fun hb' => ?_, fun d _ hd => h.unused b' d hd (.inl hu)⟩
    rcases mem_cons.mp hb' with rfl | hin
    · exact hb hu
    · exact h.unused b' c hin (.inl hu)
  · rcases hb' with hu | hb' | hb'
    · exact h.old b' (.inl (.inl hu))
    · exact h.old b' ((mem_cons.mp hb').imp .inr fun hin => ⟨c, hin⟩)
    · exact h.old b' (.inr hb')

lemma page (h : BlobsFree S used) (c : ℕ) : BlobsFree (S.addPage c) used := by
  have hnew : ∀ b' ∈ blobsOfPage c (S.npages c), ¬ (used b' ∨ ∃ d, b' ∈ S.free d) := by
    intro b' hb' hold
    have hlt := h.old b' hold
    obtain ⟨rfl, hge, -⟩ := mem_blobsOfPage.mp hb'
    omega
  have hold : ∀ b', (used b' ∨ ∃ d, b' ∈ S.free d) →
      b'.idx < update S.npages c (S.npages c + 1) b'.cpu * nShareblobPerPage := by
    intro b' hb'
    refine (h.old b' hb').trans_le (Nat.mul_le_mul_right _ ?_)
    rw [update_apply]
    split_ifs with hc
    · exact hc ▸ Nat.le_succ _
    · exact le_rfl
  refine h.relist (nodup_append'.mpr ⟨blobsOfPage_nodup, h.nodup c, fun b' hb' hin =>
    hnew b' hb' (.inr ⟨c, hin⟩)⟩) (fun b' hb' => ?_) (fun b' hu => ?_) fun b' hb' => ?_
  · rcases mem_append.mp hb' with hb' | hin
    · exact .inr fun d hd => hnew b' hb' (.inr ⟨d, hd⟩)
    · exact .inl hin
  · refine ⟨fun hb' => ?_, fun d _ hd => h.unused b' d hd hu⟩
    rcases mem_append.mp hb' with hb' | hin
    · exact hnew b' hb' (.inl hu)
    · exact h.unused b' c hin hu
  · rcases hb' with hu | hb' | hb'
    · exact hold b' (.inl hu)
    · rcases mem_append.mp hb' with hb' | hin
      · obtain ⟨rfl, -, hlt⟩ := mem_blobsOfPage.mp hb'
        rwa [update_self, Nat.add_mul, one_mul]
      · exact hold b' (.inr ⟨c, hin⟩)
    · exact hold b' (.inr hb')

end BlobsFree

/-- The CPU has a free blob of the share or gets a page for more. -/
def BlobAtHand (sh : Kobj) (s : Machine) : Prop :=
  (s.obj sh).sh.free s.mem.cpu ≠ [] ∨
    ((putNewPage (shBlob sh s.mem.cpu) (s.obj sh).koPid
      ((s.obj sh).sh.npages s.mem.cpu)).result s.forest).isSome = true
  deriving Decidable

lemma blobAtHand_setShare : BlobAtHand sh (s.setShare sh S w) ↔ S.free w.mem.cpu ≠ [] ∨
    ((putNewPage (shBlob sh w.mem.cpu) (s.obj sh).koPid (S.npages w.mem.cpu)).result w).isSome =
      true := by
  rw [BlobAtHand, setShare_self]
  rfl

lemma shareBlobPage_spec (c : ℕ) :
    wp (shareBlobPage sh c) (fun _ t => ∃ w', t = s.setShare sh (S.addPage c) w') ⟨fun _ t =>
        ¬ ((putNewPage (shBlob sh c) (s.obj sh).koPid (S.npages c)).result w).isSome = true ∧
          ∃ w', t = s.setShare sh S w', fun _ _ => True⟩ (s.setShare sh S w) := by
  simp only [shareBlobPage, wp_bind, wp_derefAs_any, wp_onForest_share, wp_modShare, setShare_self]
  intro _ _
  rcases hrun : putNewPage (shBlob sh c) (s.obj sh).koPid (S.npages c) w with ⟨p | e | _, w1⟩ <;>
    simp only [wp, hrun]
  · exact ⟨_, rfl⟩
  · refine ⟨fun hsome => ?_, w1, rfl⟩
    simp [result, hrun] at hsome

/-- A blob that was not in use has been taken from the share. -/
def Takes (sh : Kobj) (s : Machine) (S : Share) (used : Blob → Prop) (b : Blob) (t : Machine) :
    Prop :=
  ∃ S' w', t = s.setShare sh S' w' ∧ S'.shKobjectMap = S.shKobjectMap ∧ S'.info = S.info ∧
    ¬ used b ∧ BlobsFree S' fun b' => used b' ∨ b' = b

/-- A failure changes nothing but memory. -/
@[reducible] def LacksBlob (sh : Kobj) (s : Machine) (S : Share) (w : Forest TreeId) :
    Exits Errno Machine where
  err _ t := ¬ BlobAtHand sh (s.setShare sh S w) ∧ ∃ w', t = s.setShare sh S w'
  stop _ _ := True

lemma shareBlobAlloc_spec (hb : BlobsFree S used) :
    wp (shareBlobAlloc sh) (Takes sh s S used) (LacksBlob sh s S w) (s.setShare sh S w) := by
  -- the second half takes the head of the list of the CPU that has been looked at before
  have hhead : ∀ (S1 : Share) (w1 : Forest TreeId), S1.shKobjectMap = S.shKobjectMap →
      S1.info = S.info → BlobsFree S1 used →
      wp (do
        let o ← derefAs .share sh
        let b ← need .panic (o.sh.free w.mem.cpu).head?
        modShare sh fun s => { s with
          free := update s.free w.mem.cpu (s.free w.mem.cpu).tail }
        pure b) (Takes sh s S used) (LacksBlob sh s S w) (s.setShare sh S1 w1) := by
    intro S1 w1 hmap hinfo hfree
    simp only [wp_rules, wp_derefAs, wp_modShare, LacksBlob, implies_true, and_true, setShare_self]
    intro _ _ b hb
    obtain ⟨l, hl⟩ : ∃ l, S1.free w.mem.cpu = b :: l := head?_eq_some_iff.mp hb
    have htake := hfree.take hl
    refine ⟨_, w1, rfl, hmap, hinfo, htake.1, ?_⟩
    rw [hl]
    exact htake.2
  simp only [shareBlobAlloc]
  rw [wp_bind, wp_archCpu, wp_bind, wp_derefAs_any]
  intro _ _
  by_cases hnil : S.free w.mem.cpu = []
  · rw [if_pos (by rw [setShare_self]; exact hnil), wp_bind]
    refine wp_mono (shareBlobPage_spec w.mem.cpu) (fun _ t ht => ?_) fun _ t ht => ?_
    · obtain ⟨w', rfl⟩ := ht
      exact hhead (S.addPage w.mem.cpu) w' rfl rfl (hb.page w.mem.cpu)
    · refine ⟨fun hhand => ?_, ht.2⟩
      exact ht.1 ((blobAtHand_setShare.mp hhand).resolve_left fun hne => hne hnil)
  · rw [if_neg (by rw [setShare_self]; exact hnil)]
    exact hhead S w rfl rfl hb

lemma getInfo_spec {Q : ShareInfo → Machine → Prop} {X : Exits Errno Machine}
    (hX : ∀ w t, X.stop w t) (hQ : Q (S.info b) (s.setShare sh S w)) :
    wp (getInfo sh b) Q X (s.setShare sh S w) := by
  simp only [getInfo, wp_rules, wp_derefAs, setShare_self]
  exact ⟨fun _ _ => hQ, fun _ _ => hX _ _, fun _ => hX _ _⟩

lemma shareBlobFree_spec {c : Blob} {X : Exits Errno Machine} (hX : ∀ w t, X.stop w t)
    (hQ : Q () (s.setShare sh { S with
      free := update S.free w.mem.cpu (c :: S.free w.mem.cpu) } w)) :
    wp (shareBlobFree sh c) Q X (s.setShare sh S w) := by
  simp only [shareBlobFree, wp_bind, wp_archCpu, wp_derefAs, wp_modShare]
  exact ⟨fun _ _ => hQ, fun _ _ => hX _ _, fun _ => hX _ _⟩

/-! ### The books of a share -/

variable {f g : Finmap fun _ : ℕ => Blob} {q : List ShareAction} {k : ℕ}

/-- A blob that tells of a member, or of a removal that is to be completed. -/
def Used (f : Finmap fun _ : ℕ => Blob) (q : List ShareAction) (b : Blob) : Prop :=
  (∃ k, f.lookup k = some b) ∨ ∃ a ∈ q, a.saSi = b ∨ a.sa = b

/-- The map of the share is `f`, and no blob is used for two things. -/
structure Books (S : Share) (f : Finmap fun _ : ℕ => Blob) (q : List ShareAction) : Prop where
  sized : Sized S.shKobjectMap
  holds : Holds S.shKobjectMap.table f
  free : BlobsFree S (Used f q)
  inj : ∀ k k' b, f.lookup k = some b → f.lookup k' = some b → k = k'
  apart : ∀ k b, f.lookup k = some b → ∀ a ∈ q, a.saSi ≠ b
  nodup : q.Nodup

/-- The blobs in use say what `info` says. -/
def Says (S : Share) (f : Finmap fun _ : ℕ => Blob) (q : List ShareAction)
    (info : Blob → ShareInfo) : Prop :=
  ∀ b, Used f q b → S.info b = info b

lemma used_of_lookup (h : f.lookup k = some b) : Used f q b := .inl ⟨k, h⟩

namespace Books

lemma setInfo (h : Books S f q) (i : Blob → ShareInfo) : Books { S with info := i } f q :=
  ⟨h.sized, h.holds, h.free.congr rfl rfl, h.inj, h.apart, h.nodup⟩

lemma insert (h : Books S f q) (hb : ¬ Used f q b)
    (hs : Sized S'.shKobjectMap) (hh : Holds S'.shKobjectMap.table (f.insert k b))
    (hf : BlobsFree S' fun b' => Used f q b' ∨ b' = b) : Books S' (f.insert k b) q := by
  refine ⟨hs, hh, hf.mono fun b' hu => ?_, fun k1 k2 b' h1 h2 => ?_, fun k' b' hl a ha => ?_,
    h.nodup⟩
  · rcases hu with ⟨k', hl⟩ | hu
    · exact (lookup_insert_some.mp hl).symm.imp (fun hold => .inl ⟨k', hold.2⟩) And.right
    · exact .inl (.inr hu)
  · rcases lookup_insert_some.mp h1 with ⟨hk1, hb1⟩ | ⟨-, hl1⟩ <;>
      rcases lookup_insert_some.mp h2 with ⟨hk2, hb2⟩ | ⟨-, hl2⟩
    · rw [hk1, hk2]
    · exact absurd (used_of_lookup (hb1 ▸ hl2)) hb
    · exact absurd (used_of_lookup (hb2 ▸ hl1)) hb
    · exact h.inj k1 k2 b' hl1 hl2
  · rcases lookup_insert_some.mp hl with ⟨-, rfl⟩ | ⟨-, hl⟩
    · exact fun heq => hb (.inr ⟨a, ha, .inl heq⟩)
    · exact h.apart k' b' hl a ha

lemma erase {b1 : Blob} (h : Books S f q) (hk : f.lookup k = some b)
    (hb : ¬ Used f q b1) (hs : Sized S'.shKobjectMap) (hh : Holds S'.shKobjectMap.table (f.erase k))
    (hf : BlobsFree S' fun b' => Used f q b' ∨ b' = b1) :
    Books S' (f.erase k) (⟨sh, b, .dec, b1⟩ :: q) := by
  refine ⟨hs, hh, hf.mono fun b' hu => ?_, fun k1 k2 b' h1 h2 => ?_, fun k' b' hl a ha => ?_, ?_⟩
  · rcases hu with ⟨k', hl⟩ | ⟨a, ha, hab⟩
    · exact .inl (.inl ⟨k', (lookup_erase_some.mp hl).2⟩)
    · rcases mem_cons.mp ha with rfl | ha
      · rcases hab with rfl | rfl
        · exact .inl (used_of_lookup hk)
        · exact .inr rfl
      · exact .inl (.inr ⟨a, ha, hab⟩)
  · exact h.inj k1 k2 b' (lookup_erase_some.mp h1).2 (lookup_erase_some.mp h2).2
  · obtain ⟨hne, hl⟩ := lookup_erase_some.mp hl
    rcases mem_cons.mp ha with rfl | ha
    · rintro rfl
      exact hne (h.inj k' k b hl hk)
    · exact h.apart k' b' hl a ha
  · refine nodup_cons.mpr ⟨fun hin => ?_, h.nodup⟩
    exact hb (.inr ⟨_, hin, .inr rfl⟩)

end Books

/-! ### One call -/

/-- The state after an import of the object `ko`: one import more of a member, or a new member. -/
inductive Imported (sh ko : Kobj) (s : Machine) (f : Finmap fun _ : ℕ => Blob)
    (q : List ShareAction) : Machine → Prop
  | again {b : Blob} {S : Share} (w : Forest TreeId) (hb : f.lookup (s.obj ko).koId = some b)
      (hS : Books S f q)
      (hi : Says S f q (update (s.obj sh).sh.info b { (s.obj sh).sh.info b with
        siCnt := (((s.obj sh).sh.info b).siCnt + 1) % word32 })) :
    Imported sh ko s f q (s.setShare sh S w)
  | first {b : Blob} {S : Share} (w : Forest TreeId) (hk : (s.obj ko).koId ∉ f)
      (hb : ¬ Used f q b) (hS : Books S (f.insert (s.obj ko).koId b) q)
      (hi : Says S f q (s.obj sh).sh.info)
      (hb' : S.info b = { siKo := ko, siCo := 0, siCnt := 1 }) (hl : (s.obj ko).live = true) :
    Imported sh ko s f q ((s.setShare sh S w).modObj ko fun o => { o with koRef := o.koRef + 1 })

/-- What a call that fails leaves behind. -/
def FailedCall (sh : Kobj) (s : Machine) (f : Finmap fun _ : ℕ => Blob) (q : List ShareAction)
    (t : Machine) : Prop :=
  ∃ S w, t = s.setShare sh S w ∧ Books S f q ∧ Says S f q (s.obj sh).sh.info

lemma Books.give (h : Books S f q) (hb : ¬ Used f q b) (c : ℕ) (hs : Sized S'.shKobjectMap)
    (hh : Holds S'.shKobjectMap.table f) (hf : BlobsFree S' fun b' => Used f q b' ∨ b' = b) :
    Books { S' with free := update S'.free c (b :: S'.free c) } f q :=
  ⟨hs, hh, hf.give hb c, h.inj, h.apart, h.nodup⟩

lemma shareImportObj_spec (ko : Kobj) (h : Books (s.obj sh).sh f q) :
    wp (shareImportObj sh ko) (fun _ t => Imported sh ko s f q t)
      ⟨fun _ t => FailedCall sh s f q t, fun _ _ => True⟩ s := by
  simp only [shareImportObj, wp_rules, wp_deref, wp_derefAs, implies_true, and_true]
  intro hl _ _
  refine ⟨fun _ => ⟨_, s.forest, setShare_same.symm, h, fun _ _ => rfl⟩, fun _ => ?_⟩
  have halloc := @shareBlobAlloc_spec sh s _ s.forest _ h.free
  rw [setShare_eq_self] at halloc
  refine wp_mono halloc (fun b0 t ht => ?_) fun _ t ht => ?_
  · obtain ⟨S1, w1, rfl, hmap, hinfo, hb0, hfree⟩ := ht
    have hsays : ∀ b v, Used f q b → update S1.info b0 v b = (s.obj sh).sh.info b := by
      intro b v hu
      have hne : b ≠ b0 := fun heq => hb0 (heq ▸ hu)
      rw [update_of_ne hne, hinfo]
    simp only [setInfo, getInfo, wp_modShare, wp_attempt, wp_onShareMap]
    have hget := mapGet_holds (ι := TreeId) (s := (S1.shKobjectMap, w1)) (hmap ▸ h.holds)
      (s.obj ko).koId
    refine wp_mono hget (fun b1 r hr => ?_) fun _ r hr => ?_
    · -- the object is there already
      obtain ⟨rfl, hb1⟩ := hr
      simp only [wp_rules, wp_derefAs_any, wp_modShare, setShare_self]
      intro _ _
      refine shareBlobFree_spec (fun _ _ => trivial) ?_
      refine .again _ hb1 (h.give hb0 _ (hmap ▸ h.sized) (hmap ▸ h.holds) (hfree.congr rfl rfl)) ?_
      intro b hu
      by_cases hbb : b = b1
      · subst hbb
        simp only [update_self, hsays b _ hu]
      · simp only [update_of_ne hbb, hsays b _ hu]
    · -- the object is new
      obtain ⟨rfl, hno⟩ := hr
      refine wp_bind.mpr (wp_onErr.mpr (wp_onShareMap.mpr ?_))
      have hput := @mapPut_holds _ _ _ (mapBack sh) _ (S1.shKobjectMap, w1) _
        (hmap ▸ h.sized) (hmap ▸ h.holds) (fun hf => absurd hf hno) b0
      refine wp_mono hput (fun _ r hr => ?_) fun _ r hr => ?_
      · simp only [kobjectIncref, wp_rules, wp_deref]
        refine ⟨fun _ => ?_, fun _ => trivial⟩
        refine .first _ hno hb0 (h.insert hb0 hr.2.1 hr.2.2 (hfree.congr rfl rfl)) ?_ ?_ hl
        · exact fun b hu => hsays b _ hu
        · exact update_self ..
      · refine shareBlobFree_spec (fun _ _ => trivial) ?_
        exact ⟨_, _, rfl, h.give hb0 _ hr.1 hr.2 (hfree.congr rfl rfl), fun b hu => hsays b _ hu⟩
  · obtain ⟨-, w', rfl⟩ := ht
    exact ⟨_, _, rfl, h, fun _ _ => rfl⟩

def lower (n : ℕ) : ℕ := (n + (word32 - 1)) % word32

lemma lower_eq (h0 : 0 < n) (hn : n < word32) : lower n = n - 1 := by
  have hsub : n + (word32 - 1) = n - 1 + word32 := by omega
  rw [lower, hsub, Nat.add_mod_right, Nat.mod_eq_of_lt (by omega)]

/-- What is known of a member after one of its imports has been undone. -/
def ShareInfo.less (i : ShareInfo) : ShareInfo := { i with siCnt := lower i.siCnt }

lemma shareRemoveObj_eq (sh : Kobj) (id : ℕ) : shareRemoveObj sh id = (do
    let _ ← derefAs .share sh
    let sb0 ← onShareMap sh (mapGet id)
    let i ← getInfo sh sb0
    setInfo sh sb0 i.less
    if lower i.siCnt = 0 then do
      let sb1 ← shareBlobAlloc sh
      match ← attempt (onShareMap sh (mapErase id)) with
      | .error _ => halt .panic
      | .ok _ => pushAction ⟨sh, sb0, .dec, sb1⟩) := rfl

lemma less_siKo : ∀ i : ShareInfo, i.less.siKo = i.siKo
  | ⟨ko, _, _⟩ => Eq.refl ko

lemma less_siCnt (i : ShareInfo) : i.less.siCnt = lower i.siCnt := rfl

-- otherwise comparing two conditions counts down from `word32`
attribute [irreducible] lower

/-- The machine with one more action on the list of the CPU `c`. -/
def Machine.pushRm (c : ℕ) (a : ShareAction) (s : Machine) : Machine :=
  { s with shRmList := update s.shRmList c (a :: s.shRmList c) }

lemma mem_pushRm {d : ℕ} {a a' : ShareAction} :
    a ∈ (s.pushRm c a').shRmList d ↔ d = c ∧ a = a' ∨ a ∈ s.shRmList d := by
  by_cases hd : d = c
  · subst hd
    simp [pushRm]
  · simp [pushRm, hd]

/-- The state after a removal by id: one import less of a member, or a member less. -/
inductive Removed (sh : Kobj) (id : ℕ) (s : Machine) (f : Finmap fun _ : ℕ => Blob)
    (q : List ShareAction) : Machine → Prop
  | one {b : Blob} {S : Share} (w : Forest TreeId) (hb : f.lookup id = some b)
      (hcnt : lower ((s.obj sh).sh.info b).siCnt ≠ 0) (hS : Books S f q)
      (hi : Says S f q (update (s.obj sh).sh.info b ((s.obj sh).sh.info b).less)) :
    Removed sh id s f q (s.setShare sh S w)
  | last {b b1 : Blob} {S : Share} (w : Forest TreeId) (c : ℕ) (hb : f.lookup id = some b)
      (hcnt : lower ((s.obj sh).sh.info b).siCnt = 0)
      (hS : Books S (f.erase id) (⟨sh, b, .dec, b1⟩ :: q))
      (hi : Says S f q (update (s.obj sh).sh.info b ((s.obj sh).sh.info b).less)) :
    Removed sh id s f q ((s.setShare sh S w).pushRm c ⟨sh, b, .dec, b1⟩)

/-- The removal takes a member out, but has no blob for the action. -/
def Halfway (sh : Kobj) (id : ℕ) (s : Machine) (f : Finmap fun _ : ℕ => Blob) : Prop :=
  ¬ BlobAtHand sh s ∧ ∃ b, f.lookup id = some b ∧ lower ((s.obj sh).sh.info b).siCnt = 0

lemma pushAction_dec {a : ShareAction} {X : Exits Errno Machine}
    (ha : a.saAction = .dec) (hX : ∀ w t, X.stop w t)
    (hQ : Q () (s.pushRm s.mem.cpu a)) : wp (pushAction a) Q X s := by
  simp only [pushAction, ha, wp_rules, wp_archCpu, wp_derefAs]
  exact ⟨fun _ _ => hQ, fun _ _ => hX _ _, fun _ => hX _ _⟩

lemma shareRemoveObj_spec (id : ℕ) (h : Books (s.obj sh).sh f q) :
    wp (shareRemoveObj sh id) (fun _ t => Removed sh id s f q t)
      ⟨fun _ t => t = s ∧ id ∉ f ∨ Halfway sh id s f, fun _ _ => True⟩ s := by
  have hstop : ∀ (w : Stop) (t : Machine), (⟨fun _ t => t = s ∧ id ∉ f ∨ Halfway sh id s f,
    fun _ _ => True⟩ : Exits Errno Machine).stop w t := fun _ _ => trivial
  rw [shareRemoveObj_eq, wp_bind, wp_derefAs_any]
  refine fun _ _ => wp_bind.mpr (wp_onShareMap_self.mpr ?_)
  refine wp_mono (mapGet_holds (s := ((s.obj sh).sh.shKobjectMap, s.forest)) h.holds id)
    (fun b r hr => ?_) fun _ r hr => ?_
  · obtain ⟨rfl, hb⟩ := hr
    refine wp_bind.mpr (getInfo_spec hstop (wp_seq.mpr (wp_modShare.mpr ?_)))
    refine wp_ite.mpr ⟨fun hzero => wp_bind.mpr ?_, fun hnz => ?_⟩
    · refine wp_mono (shareBlobAlloc_spec (h.free.congr rfl rfl)) (fun b1 t ht => ?_)
        fun _ t ht => .inr ⟨fun hhand => ht.1 ?_, b, hb, hzero⟩
      · obtain ⟨S1, w1, rfl, hmap, hinfo, hb1, hfree⟩ := ht
        refine wp_bind.mpr (wp_attempt.mpr (wp_onShareMap.mpr ?_))
        refine wp_of_never (mapErase_holds (s := (S1.shKobjectMap, w1)) (hmap ▸ h.sized)
          (hmap ▸ h.holds) (Finmap.mem_of_lookup_eq_some hb)) fun _ r hr => ?_
        refine pushAction_dec rfl hstop ?_
        refine .last r.2 _ hb hzero (h.erase hb hb1 hr.1 hr.2.1 (hfree.congr rfl rfl)) ?_
        intro b' _
        exact congrFun hinfo b'
      · rw [← @setShare_eq_self sh s] at hhand
        have hcpu := blobAtHand_setShare.mp hhand
        exact blobAtHand_setShare.mpr hcpu
    · exact .one _ hb hnz (h.setInfo _) fun _ _ => rfl
  · obtain ⟨rfl, hno⟩ := hr
    exact .inl ⟨setShare_eq_self, hno⟩

/-! ### Whole runs -/

inductive MemberCall
  | importObj (ko : Kobj)
  | removeObj (id : ℕ)

def MemberCall.body (sh : Kobj) : MemberCall → KM Unit
  | .importObj ko => shareImportObj sh ko
  | .removeObj id => shareRemoveObj sh id

/-- The id under which the share has the object. -/
def MemberCall.id (s : Machine) : MemberCall → ℕ
  | .importObj ko => (s.obj ko).koId
  | .removeObj id => id

def MemberCall.sign : MemberCall → ℤ
  | .importObj _ => 1
  | .removeObj _ => -1

/-- A call, and the CPU it is made on. -/
structure MemberOp where
  cpu : ℕ
  call : MemberCall

/-- A machine, where it began, and for each id the imports that succeeded without the removals
that did. -/
structure ShareRun where
  start : Machine
  machine : Machine
  net : ℕ → ℤ

/-- The share `sh` from the time it has been allocated. -/
def members (sh : Kobj) : System ShareRun MemberOp where
  init x := x.machine = x.start ∧ (x.start.obj sh).live = true ∧ (x.start.obj sh).koType = .share ∧
    (x.start.obj sh).sh.shKobjectMap.Fresh ∧ (∀ c, (x.start.obj sh).sh.free c = []) ∧
    (∀ c, ∀ a ∈ x.start.shRmList c, a.saSh ≠ sh) ∧ ∀ id, x.net id = 0
  step op x :=
    match op.call.body sh (x.machine.at op.cpu) with
    | (.ok _, s') => some { x with
        machine := s'
        net := update x.net (op.call.id x.machine)
          (x.net (op.call.id x.machine) + op.call.sign) }
    | (.err _, s') => some { x with machine := s' }
    | (.stop _, _) => none

/-- What the share knows of the object with this id. -/
def Machine.member (s : Machine) (sh : Kobj) (id : ℕ) : Option ShareInfo :=
  match (hashGet id (s.obj sh).sh.shKobjectMap.table).1 with
  | .ok b => some ((s.obj sh).sh.info b)
  | _ => none

/-- The count of a member stays within its word, and the removal that takes a member out has a
blob for the action. -/
def MemberOp.Counts (sh : Kobj) (x : ShareRun) (op : MemberOp) : Prop :=
  match op.call with
  | .importObj ko => ∀ i ∈ x.machine.member sh (x.machine.obj ko).koId, i.siCnt + 1 < word32
  | .removeObj id => ∀ i ∈ x.machine.member sh id, i.siCnt = 1 →
      BlobAtHand sh (x.machine.at op.cpu)

instance (x : ShareRun) (op : MemberOp) : Decidable (op.Counts sh x) := by
  unfold MemberOp.Counts
  split <;> infer_instance

/-- The object is the one that the share has under its id. -/
def InShare (sh : Kobj) (s : Machine) (f : Finmap fun _ : ℕ => Blob) (ko : Kobj) : Prop :=
  (f.lookup (s.obj ko).koId).map (fun b => ((s.obj sh).sh.info b).siKo) = some ko
  deriving Decidable

/-- The removals of an object that are to be completed. -/
def removals (sh : Kobj) (s : Machine) (q : List ShareAction) (ko : Kobj) : ℕ :=
  q.countP fun a => ((s.obj sh).sh.info a.saSi).siKo = ko

/-- The share counts what has been imported, and holds one reference to each member and one for
each removal that is to be completed. -/
structure Counted (sh : Kobj) (x : ShareRun) (f : Finmap fun _ : ℕ => Blob)
    (q : List ShareAction) : Prop where
  live : (x.machine.obj sh).live = true
  type : (x.machine.obj sh).koType = .share
  books : Books (x.machine.obj sh).sh f q
  keys : ∀ k b, f.lookup k = some b →
    (x.machine.obj ((x.machine.obj sh).sh.info b).siKo).live = true ∧
      (x.machine.obj ((x.machine.obj sh).sh.info b).siKo).koId = k
  pending : ∀ a, a ∈ q ↔ ∃ c, a ∈ x.machine.shRmList c ∧ a.saSh = sh
  cnt : ∀ k b, f.lookup k = some b → 0 < ((x.machine.obj sh).sh.info b).siCnt ∧
    ((x.machine.obj sh).sh.info b).siCnt < word32 ∧
      x.net k = ((x.machine.obj sh).sh.info b).siCnt
  zero : ∀ k, k ∉ f → x.net k = 0
  refs : ∀ ko, (x.machine.obj ko).koRef = (x.start.obj ko).koRef +
    (if InShare sh x.machine f ko then 1 else 0) + removals sh x.machine q ko

lemma member_eq (h : Books (s.obj sh).sh f q) (id : ℕ) :
    s.member sh id = (f.lookup id).map (s.obj sh).sh.info := by
  rw [member]
  by_cases hk : IsKey id
  · by_cases hf : id ∈ f
    · obtain ⟨b, hb⟩ := Finmap.mem_iff.mp hf
      simp only [hashGet_of_mem h.holds hb, hb, Option.map_some]
    · simp only [hashGet_of_notMem h.holds hk hf, Finmap.lookup_eq_none.mpr hf, Option.map_none]
  · have hf : id ∉ f := fun hf => hk (h.holds.key id hf)
    simp only [hashGet_notKey hk, Finmap.lookup_eq_none.mpr hf, Option.map_none]

section

variable {t : Machine} {ko : Kobj} (hk : ∀ p, Kin (s.obj p) (t.obj p))
  (hko : ∀ b, Used f q b → ((t.obj sh).sh.info b).siKo = ((s.obj sh).sh.info b).siKo)

include hk hko

lemma inShare_congr : InShare sh t f ko ↔ InShare sh s f ko := by
  rw [InShare, InShare, (hk ko).2.1]
  cases hl : f.lookup (s.obj ko).koId with
  | none => rfl
  | some b => rw [Option.map_some, Option.map_some, hko b (used_of_lookup hl)]

omit hk in
lemma removals_congr : removals sh t q ko = removals sh s q ko := by
  refine List.countP_congr fun a ha => ?_
  rw [hko a.saSi (.inr ⟨a, ha, .inl rfl⟩)]

end

namespace Counted

variable {x : ShareRun} {t : Machine} {net : ℕ → ℤ} {ko : Kobj} {op : MemberOp}

lemma init (h : (members sh).init x) : Counted sh x ∅ [] := by
  obtain ⟨heq, hlive, htype, hmap, hfree, hnone, hnet⟩ := h
  rw [← heq] at hlive htype hmap hfree hnone
  have hlook : ∀ {k b}, (∅ : Finmap fun _ : ℕ => Blob).lookup k ≠ some b := by simp
  have hunused : ∀ b, ¬ Used ∅ [] b := by
    rintro b (⟨k, hk⟩ | ⟨a, ha, -⟩)
    · exact hlook hk
    · exact absurd ha not_mem_nil
  refine ⟨hlive, htype, ⟨hmap.sized, hmap.holds, .of_empty hfree hunused,
    fun _ _ _ hl => absurd hl hlook, fun _ _ hl => absurd hl hlook, nodup_nil⟩,
    fun _ _ hl => absurd hl hlook, fun a => ?_, fun _ _ hl => absurd hl hlook, fun k _ => hnet k,
    fun ko => ?_⟩
  · exact ⟨fun ha => absurd ha not_mem_nil, fun ⟨c, ha, hsh⟩ => absurd hsh (hnone c a ha)⟩
  · have hout : ¬ InShare sh x.machine ∅ ko := by simp [InShare]
    rw [if_neg hout, heq]
    rfl

lemma keys_of (h : Counted sh x f q) (hk : ∀ p, Kin (x.machine.obj p) (t.obj p))
    (hko : ∀ b, Used f q b → ((t.obj sh).sh.info b).siKo = ((x.machine.obj sh).sh.info b).siKo)
    {k : ℕ} {b : Blob} (hl : f.lookup k = some b) :
    (t.obj ((t.obj sh).sh.info b).siKo).live = true ∧
      (t.obj ((t.obj sh).sh.info b).siKo).koId = k := by
  rw [hko b (used_of_lookup hl), (hk _).1, (hk _).2.1]
  exact h.keys k b hl

lemma kept (h : Counted sh x f q) (hk : ∀ p, Kin (x.machine.obj p) (t.obj p))
    (hrm : t.shRmList = x.machine.shRmList) (hbooks : Books (t.obj sh).sh f q)
    (hko : ∀ b, Used f q b → ((t.obj sh).sh.info b).siKo = ((x.machine.obj sh).sh.info b).siKo)
    (hcnt : ∀ k b, f.lookup k = some b → 0 < ((t.obj sh).sh.info b).siCnt ∧
      ((t.obj sh).sh.info b).siCnt < word32 ∧ net k = ((t.obj sh).sh.info b).siCnt)
    (hzero : ∀ k, k ∉ f → net k = 0)
    (href : ∀ ko, (t.obj ko).koRef = (x.machine.obj ko).koRef) :
    Counted sh ⟨x.start, t, net⟩ f q := by
  refine ⟨(hk sh).1.trans h.live, (hk sh).2.2.trans h.type, hbooks,
    fun _ _ => h.keys_of hk hko, fun a => ?_, hcnt, hzero, fun ko => ?_⟩
  · rw [h.pending a, hrm]
  · rw [href ko, h.refs ko, removals_congr hko]
    simp only [inShare_congr hk hko]

lemma failed (h : Counted sh x f q) (ht : FailedCall sh x.machine f q t) :
    Counted sh { x with machine := t } f q := by
  obtain ⟨S, w, rfl, hS, hi⟩ := ht
  have hinfo : ∀ b, Used f q b → ((x.machine.setShare sh S w).obj sh).sh.info b =
      (x.machine.obj sh).sh.info b := fun b hu => by
    rw [setShare_self]
    exact hi b hu
  refine h.kept setShare_kin rfl (setShare_self ▸ hS) (fun b hu => by rw [hinfo b hu])
    (fun k b hl => ?_) h.zero setShare_koRef
  rw [hinfo b (used_of_lookup hl)]
  exact h.cnt k b hl

lemma counted {id : ℕ} {i : ShareInfo} {d : ℤ} (h : Counted sh x f q) (hb : f.lookup id = some b)
    (hS : Books S f q) (hi : Says S f q (update (x.machine.obj sh).sh.info b i))
    (hko : i.siKo = ((x.machine.obj sh).sh.info b).siKo) (hpos : 0 < i.siCnt)
    (hlt : i.siCnt < word32) (hd : (i.siCnt : ℤ) = ((x.machine.obj sh).sh.info b).siCnt + d) :
    Counted sh ⟨x.start, x.machine.setShare sh S w, update x.net id (x.net id + d)⟩ f q := by
  have hinfo : ∀ b', Used f q b' → ((x.machine.setShare sh S w).obj sh).sh.info b' =
      update (x.machine.obj sh).sh.info b i b' := fun b' hu => by
    rw [setShare_self]
    exact hi b' hu
  refine h.kept setShare_kin rfl (setShare_self ▸ hS) (fun b' hu => ?_)
    (fun k b' hl => ?_) (fun k hno => ?_) setShare_koRef
  · rw [hinfo b' hu]
    by_cases hbb : b' = b
    · subst hbb
      rw [update_self, hko]
    · rw [update_of_ne hbb]
  · rw [hinfo b' (used_of_lookup hl)]
    by_cases hkk : k = id
    · subst hkk
      rw [hb] at hl
      cases hl
      rw [update_self, update_self, (h.cnt k b hb).2.2, hd]
      exact ⟨hpos, hlt, rfl⟩
    · have hbb : b' ≠ b := fun heq => hkk (h.books.inj k id b (heq ▸ hl) hb)
      rw [update_of_ne hbb, update_of_ne hkk]
      exact h.cnt k b' hl
  · have hkk : k ≠ id := fun heq => hno (heq ▸ Finmap.mem_of_lookup_eq_some hb)
    rw [update_of_ne hkk]
    exact h.zero k hno

lemma entered (h : Counted sh x f q)
    (hno : (x.machine.obj ko).koId ∉ f) (hS : Books S (f.insert (x.machine.obj ko).koId b) q)
    (hi : Says S f q (x.machine.obj sh).sh.info)
    (hnew : S.info b = { siKo := ko, siCo := 0, siCnt := 1 })
    (hl : (x.machine.obj ko).live = true) :
    Counted sh ⟨x.start, (x.machine.setShare sh S w).modObj ko fun o =>
      { o with koRef := o.koRef + 1 }, update x.net (x.machine.obj ko).koId
        (x.net (x.machine.obj ko).koId + 1)⟩ (f.insert (x.machine.obj ko).koId b) q := by
  set t := (x.machine.setShare sh S w).modObj ko fun o => { o with koRef := o.koRef + 1 } with ht
  set id := (x.machine.obj ko).koId with hid
  have hk : ∀ p, Kin (x.machine.obj p) (t.obj p) := fun p =>
    (setShare_kin p).trans (kin_modObj ko p (kin_refl _))
  have hsh : (t.obj sh).sh = S := by
    rw [ht, modObj_eq (g := Kobject.sh) rfl, setShare_self]
  have href : ∀ p, (t.obj p).koRef = (x.machine.obj p).koRef + if p = ko then 1 else 0 := by
    intro p
    rw [ht, incref_koRef, setShare_koRef]
  have hold : ∀ b', Used f q b' →
      ((t.obj sh).sh.info b').siKo = ((x.machine.obj sh).sh.info b').siKo := fun b' hu => by
    rw [hsh, hi b' hu]
  refine ⟨(hk sh).1.trans h.live, (hk sh).2.2.trans h.type, hsh ▸ hS, fun k b' hl' => ?_,
    fun a => h.pending a, fun k b' hl' => ?_, fun k hk' => ?_, fun p => ?_⟩
  · rcases lookup_insert_some.mp hl' with ⟨hkk, rfl⟩ | ⟨-, hl'⟩
    · simp only [hsh, hnew]
      exact ⟨(hk ko).1.trans hl, (hk ko).2.1.trans hkk.symm⟩
    · exact h.keys_of hk hold hl'
  · rcases lookup_insert_some.mp hl' with ⟨hkk, rfl⟩ | ⟨hkk, hl'⟩
    · simp only [hsh, hnew, hkk, update_self, h.zero id hno]
      exact ⟨Nat.one_pos, by decide, rfl⟩
    · simp only [hsh, hi b' (used_of_lookup hl'), update_of_ne hkk]
      exact h.cnt k b' hl'
  · rw [Finmap.mem_insert, not_or] at hk'
    simp only [update_of_ne hk'.1]
    exact h.zero k hk'.2
  · have hin : InShare sh t (f.insert id b) p ↔ p = ko ∨ InShare sh x.machine f p := by
      rw [InShare, (hk p).2.1]
      by_cases hpid : (x.machine.obj p).koId = id
      · have hout : ¬ InShare sh x.machine f p := by
          rw [InShare, hpid, Finmap.lookup_eq_none.mpr hno]
          exact nofun
        rw [hpid, Finmap.lookup_insert, Option.map_some, hsh, hnew]
        simp [hout, eq_comm]
      · have hne : p ≠ ko := fun heq => hpid (heq ▸ hid.symm)
        rw [Finmap.lookup_insert_of_ne _ hpid, ← (hk p).2.1]
        simp only [hne, false_or]
        exact inShare_congr hk hold
    have hfirst : ¬ InShare sh x.machine f ko := by
      rw [InShare, ← hid, Finmap.lookup_eq_none.mpr hno]
      exact nofun
    simp only [href p, h.refs p, removals_congr hold, hin]
    by_cases hp : p = ko
    · subst hp
      simp only [hfirst, or_false, if_true, if_false]
      omega
    · simp only [hp, false_or, if_false]
      omega

lemma imported (h : Counted sh x f q)
    (hok : ∀ i ∈ x.machine.member sh (x.machine.obj ko).koId, i.siCnt + 1 < word32)
    (ht : Imported sh ko x.machine f q t) :
    ∃ g, Counted sh ⟨x.start, t, update x.net (x.machine.obj ko).koId
      (x.net (x.machine.obj ko).koId + 1)⟩ g q := by
  cases ht with
  | @again b S w hb hS hi =>
    have hlt : ((x.machine.obj sh).sh.info b).siCnt + 1 < word32 := by
      refine hok _ ?_
      rw [member_eq h.books, hb]
      rfl
    refine ⟨f, h.counted hb hS hi rfl ?_ (Nat.mod_lt _ (by omega)) ?_⟩ <;>
      simp only [Nat.mod_eq_of_lt hlt]
    · exact Nat.succ_pos _
    · exact Nat.cast_succ _
  | @first b S w hno hb hS hi hnew hl =>
    exact ⟨_, h.entered hno hS hi hnew hl⟩

lemma left {id : ℕ} {b1 : Blob} (h : Counted sh x f q)
    (hb : f.lookup id = some b) (hcnt : ((x.machine.obj sh).sh.info b).siCnt = 1)
    (hS : Books S (f.erase id) (⟨sh, b, .dec, b1⟩ :: q))
    (hi : Says S f q (update (x.machine.obj sh).sh.info b ((x.machine.obj sh).sh.info b).less)) :
    Counted sh ⟨x.start, (x.machine.setShare sh S w).pushRm c ⟨sh, b, .dec, b1⟩,
      update x.net id (x.net id + -1)⟩ (f.erase id) (⟨sh, b, .dec, b1⟩ :: q) := by
  set t := (x.machine.setShare sh S w).pushRm c ⟨sh, b, .dec, b1⟩ with ht
  have hobj : t.obj = (x.machine.setShare sh S w).obj := rfl
  have hk : ∀ p, Kin (x.machine.obj p) (t.obj p) := fun p => by
    rw [hobj]
    exact setShare_kin p
  have hsh : (t.obj sh).sh = S := by rw [hobj, setShare_self]
  have hold : ∀ b', Used f q b' →
      ((t.obj sh).sh.info b').siKo = ((x.machine.obj sh).sh.info b').siKo := fun b' hu => by
    rw [hsh, hi b' hu]
    by_cases hbb : b' = b
    · rw [hbb, update_self, less_siKo]
    · rw [update_of_ne hbb]
  refine ⟨(hk sh).1.trans h.live, (hk sh).2.2.trans h.type, hsh ▸ hS,
    fun _ _ hl => h.keys_of hk hold (lookup_erase_some.mp hl).2, fun a => ?_, fun k b' hl => ?_,
    fun k hk' => ?_, fun p => ?_⟩
  · rw [mem_cons, h.pending a]
    constructor
    · rintro (rfl | ⟨d, ha, hash⟩)
      · exact ⟨c, mem_pushRm.mpr (.inl ⟨rfl, rfl⟩), rfl⟩
      · exact ⟨d, mem_pushRm.mpr (.inr ha), hash⟩
    · rintro ⟨d, ha, hash⟩
      rcases mem_pushRm.mp ha with ⟨-, rfl⟩ | ha
      · exact .inl rfl
      · exact .inr ⟨d, ha, hash⟩
  · obtain ⟨hkk, hl⟩ := lookup_erase_some.mp hl
    have hbb : b' ≠ b := fun heq => hkk (h.books.inj k id b (heq ▸ hl) hb)
    simp only [hsh, hi b' (used_of_lookup hl), update_of_ne hbb, update_of_ne hkk]
    exact h.cnt k b' hl
  · by_cases hkk : k = id
    · subst hkk
      simp only [update_self, (h.cnt k b hb).2.2, hcnt]
      rfl
    · simp only [update_of_ne hkk]
      exact h.zero k fun hf => hk' (Finmap.mem_erase.mpr ⟨hkk, hf⟩)
  · set m := ((x.machine.obj sh).sh.info b).siKo with hm
    have hmid : (x.machine.obj m).koId = id := (h.keys id b hb).2
    have hsi : ((t.obj sh).sh.info b).siKo = m := hold b (used_of_lookup hb)
    have hin : InShare sh t (f.erase id) p ↔ p ≠ m ∧ InShare sh x.machine f p := by
      rw [InShare, (hk p).2.1]
      by_cases hpid : (x.machine.obj p).koId = id
      · have heq : InShare sh x.machine f p ↔ m = p := by
          rw [InShare, hpid, hb, Option.map_some, Option.some.injEq]
        rw [hpid, Finmap.lookup_erase, heq]
        simp [eq_comm]
      · have hpm : p ≠ m := fun heq => hpid (heq ▸ hmid)
        rw [Finmap.lookup_erase_ne hpid, ← (hk p).2.1]
        simp only [ne_eq, hpm, not_false_eq_true, true_and]
        exact inShare_congr hk hold
    have hwas : InShare sh x.machine f m := by
      rw [InShare, hmid, hb, Option.map_some]
    have hrem : removals sh t (⟨sh, b, .dec, b1⟩ :: q) p =
        removals sh x.machine q p + if m = p then 1 else 0 := by
      rw [removals, countP_cons, ← removals, removals_congr hold]
      simp only [hsi, decide_eq_true_eq]
    have href : (t.obj p).koRef = (x.machine.obj p).koRef := by rw [hobj, setShare_koRef]
    simp only [href, h.refs p, hin, hrem]
    by_cases hp : p = m
    · subst hp
      simp only [hwas, ne_eq, not_true_eq_false, false_and, if_true, if_false]
      omega
    · simp only [ne_eq, hp, not_false_eq_true, true_and, if_neg fun heq : m = p => hp heq.symm,
        Nat.add_zero]

lemma removed {id : ℕ} (h : Counted sh x f q) (ht : Removed sh id x.machine f q t) :
    ∃ g q', Counted sh ⟨x.start, t, update x.net id (x.net id + -1)⟩ g q' := by
  cases ht with
  | @one b S w hb hcnt hS hi =>
    obtain ⟨hpos, hlt, -⟩ := h.cnt id b hb
    rw [lower_eq hpos hlt] at hcnt
    refine ⟨f, q, h.counted hb hS hi (less_siKo _) ?_ ?_ ?_⟩ <;>
      rw [less_siCnt, lower_eq hpos hlt] <;> omega
  | @last b b1 S w c hb hcnt hS hi =>
    obtain ⟨hpos, hlt, -⟩ := h.cnt id b hb
    rw [lower_eq hpos hlt] at hcnt
    exact ⟨_, _, h.left hb (by omega) hS hi⟩

lemma at_cpu (h : Counted sh x f q) (c : ℕ) :
    Counted sh { x with machine := x.machine.at c } f q :=
  ⟨h.live, h.type, h.books, h.keys, h.pending, h.cnt, h.zero, h.refs⟩

lemma remove_err {id : ℕ} (h : Counted sh x f q) (hok : MemberOp.Counts sh x ⟨c, .removeObj id⟩)
    (ht : t = x.machine.at c ∧ id ∉ f ∨ Halfway sh id (x.machine.at c) f) : t = x.machine.at c := by
  rcases ht with ⟨ht, -⟩ | ⟨hhand, b, hb, hzero⟩
  · exact ht
  · obtain ⟨hpos, hlt, -⟩ := h.cnt id b hb
    have hone : ((x.machine.obj sh).sh.info b).siCnt = 1 := by
      have heq : lower ((x.machine.obj sh).sh.info b).siCnt = 0 := hzero
      rw [lower_eq hpos hlt] at heq
      omega
    refine absurd (hok _ ?_ hone) hhand
    rw [member_eq h.books, hb]
    rfl

lemma step {y : ShareRun} (h : Counted sh x f q) (hok : op.Counts sh x)
    (hs : (members sh).step op x = some y) : ∃ g q', Counted sh y g q' := by
  have hc := h.at_cpu op.cpu
  obtain ⟨c, ko | id⟩ := op
  · have hspec := shareImportObj_spec ko hc.books
    simp only [members, MemberCall.body, MemberCall.id, MemberCall.sign] at hs
    simp only [wp] at hspec
    rcases hrun : shareImportObj sh ko (x.machine.at c) with ⟨_ | _ | _, s'⟩ <;>
      simp only [hrun] at hs hspec <;> cases hs
    · obtain ⟨g, hg⟩ := hc.imported hok hspec
      exact ⟨g, q, hg⟩
    · exact ⟨f, q, hc.failed hspec⟩
  · have hspec := shareRemoveObj_spec id hc.books
    simp only [members, MemberCall.body, MemberCall.id, MemberCall.sign] at hs
    simp only [wp] at hspec
    rcases hrun : shareRemoveObj sh id (x.machine.at c) with ⟨_ | _ | _, s'⟩ <;>
      simp only [hrun] at hs hspec <;> cases hs
    · exact hc.removed hspec
    · have ht := h.remove_err hok hspec
      subst ht
      exact ⟨f, q, hc⟩

lemma atomic {e : Errno} (h : Counted sh x f q) (hok : op.Counts sh x)
    (hrun : op.call.body sh (x.machine.at op.cpu) = (.err e, t)) :
    (∀ id, t.member sh id = x.machine.member sh id) ∧
      ∀ ko, (t.obj ko).koRef = (x.machine.obj ko).koRef := by
  have hc := h.at_cpu op.cpu
  obtain ⟨c, ko | id⟩ := op
  · have hspec := shareImportObj_spec ko hc.books
    simp only [MemberCall.body] at hrun
    simp only [wp, hrun] at hspec
    have ht := (hc.failed hspec).books
    obtain ⟨S, w, rfl, -, hi⟩ := hspec
    refine ⟨fun id => ?_, setShare_koRef⟩
    rw [member_eq ht, member_eq h.books, setShare_self]
    cases hl : f.lookup id with
    | none => rfl
    | some b => exact congrArg some (hi b (used_of_lookup hl))
  · have hspec := shareRemoveObj_spec id hc.books
    simp only [MemberCall.body] at hrun
    simp only [wp, hrun] at hspec
    have ht := h.remove_err hok hspec
    subst ht
    exact ⟨fun _ => rfl, fun _ => rfl⟩

lemma lookup_of_pos {id : ℕ} (h : Counted sh x f q) (hpos : 0 < x.net id) :
    ∃ b, f.lookup id = some b := by
  by_contra hnone
  have hzero := h.zero id fun hf => hnone (Finmap.mem_iff.mp hf)
  omega

lemma found {id : ℕ} {sb1 : Blob} (h : Counted sh x f q) (hb : f.lookup id = some b)
    (halloc : shareBlobAlloc sh (x.machine.at c) = (.ok sb1, t)) :
    ∃ t', shareCoObj sh id none (x.machine.at c) =
      (.ok ((x.machine.obj sh).sh.info b).siKo, t') := by
  have hc := h.at_cpu c
  have hspec := @shareBlobAlloc_spec sh (x.machine.at c) _ (x.machine.at c).forest _ hc.books.free
  rw [setShare_eq_self] at hspec
  simp only [wp, halloc] at hspec
  obtain ⟨S, w, rfl, -⟩ := hspec
  have hlive : ∀ S w, (((x.machine.at c).setShare sh S w).obj sh).live = true ∧
      (((x.machine.at c).setShare sh S w).obj sh).koType = .share := fun S w => by
    rw [setShare_self]
    exact ⟨hc.live, hc.type⟩
  have hget : onShareMap sh (mapGet id) (x.machine.at c) = (.ok b, x.machine.at c) := by
    refine eq_of_wp (wp_onShareMap_self.mpr ?_)
    refine wp_mono (mapGet_holds hc.books.holds id) (fun b' r hr => ?_) fun _ r hr => ?_
    · obtain ⟨rfl, hl⟩ := hr
      exact ⟨Option.some.inj (hl.symm.trans hb), setShare_eq_self⟩
    · exact absurd (Finmap.mem_of_lookup_eq_some hb) hr.2
  have hwp : wp (shareCoObj sh id none) (fun ko _ => ko = ((x.machine.obj sh).sh.info b).siKo)
      .never (x.machine.at c) := by
    have hderef : ∀ {Q : Kobject → Machine → Prop} {s : Machine}, (s.obj sh).live = true →
        (s.obj sh).koType = .share → Q (s.obj sh) s → wp (derefAs .share sh) Q .never s := by
      intro Q s hl ht hQ
      simp [wp_derefAs, hl, ht, hQ]
    refine wp_bind.mpr (hderef hc.live hc.type (wp_bind.mpr (wp_of_ok hget ?_)))
    refine wp_bind.mpr (wp_bind.mpr (hderef hc.live hc.type ?_))
    refine wp_bind.mpr (wp_deref.mpr ⟨fun _ => ?_, fun hdead => ?_⟩)
    · refine wp_ite.mpr ⟨nofun, fun _ => wp_bind.mpr (wp_of_ok halloc ?_)⟩
      refine wp_bind.mpr (wp_modShare.mpr (wp_bind.mpr ?_))
      refine wp_bind.mpr (wp_archCpu.mpr (wp_bind.mpr (hderef (hlive _ _).1 (hlive _ _).2 ?_)))
      rfl
    · exact absurd (hdead.symm.trans (hc.keys id b hb).1) nofun
  obtain ⟨ko, t', hrun, rfl⟩ := ok_of_never hwp
  exact ⟨t', hrun⟩

lemma not_found {id : ℕ} {type : Option KobjType} (h : Counted sh x f q)
    (hno : id ∉ f) : shareCoObj sh id type (x.machine.at c) ≠ (.ok ko, t) := by
  intro hrun
  have hc := h.at_cpu c
  have hwp : wp (shareCoObj sh id type) (fun _ _ => False) .any (x.machine.at c) := by
    rw [shareCoObj, wp_bind, wp_derefAs_any]
    intro _ _
    refine wp_bind.mpr (wp_onShareMap_self.mpr ?_)
    refine wp_mono (mapGet_holds hc.books.holds id) (fun b r hr => ?_) fun _ _ _ => trivial
    exact absurd (Finmap.mem_of_lookup_eq_some hr.2) hno
  exact wp_ok hwp hrun

end Counted

lemma counted_of_reach {x : ShareRun} (h : (members sh).Reach (fun x op => op.Counts sh x) x) :
    ∃ f q, Counted sh x f q := by
  refine System.Reach.invariant (I := fun x => ∃ f q, Counted sh x f q)
    (fun x hx => ⟨∅, [], .init hx⟩) (fun x op y hx hok hs => ?_) h
  obtain ⟨f, q, hx⟩ := hx
  exact hx.step hok hs

/-- **Membership in a share is counted** as long as no count leaves its word and the removal that
takes a member out has a blob for its action: an object is found while it has been imported more
often than removed, the share holds one reference to a member and one for each removal that is to
be completed, and a call that fails changes no count. -/
theorem membership_is_counted {x : ShareRun}
    (h : (members sh).Reach (fun x op => op.Counts sh x) x) :
    (∀ id, 0 < x.net id → ∃ ko, (x.machine.obj ko).koId = id ∧
      ∀ c b t, shareBlobAlloc sh (x.machine.at c) = (.ok b, t) →
        ∃ t', shareCoObj sh id none (x.machine.at c) = (.ok ko, t')) ∧
    (∀ id, x.net id ≤ 0 → ∀ c type ko t, shareCoObj sh id type (x.machine.at c) ≠ (.ok ko, t)) ∧
    (∃ q : List ShareAction, q.Nodup ∧ (∀ a, a ∈ q ↔ ∃ c, a ∈ x.machine.shRmList c ∧ a.saSh = sh) ∧
      ∀ ko, (x.machine.obj ko).koRef = (x.start.obj ko).koRef +
        (if (x.machine.member sh (x.machine.obj ko).koId).map ShareInfo.siKo = some ko
          then 1 else 0) +
        q.countP fun a => ((x.machine.obj sh).sh.info a.saSi).siKo = ko) ∧
    ∀ op : MemberOp, op.Counts sh x → ∀ e t, op.call.body sh (x.machine.at op.cpu) = (.err e, t) →
        (∀ id, t.member sh id = x.machine.member sh id) ∧
          ∀ ko, (t.obj ko).koRef = (x.machine.obj ko).koRef := by
  obtain ⟨f, q, hx⟩ := counted_of_reach h
  refine ⟨fun id hpos => ?_, fun id hle c type ko t => hx.not_found fun hf => ?_,
    ⟨q, hx.books.nodup, hx.pending, fun ko => ?_⟩, fun op hok e t hrun => hx.atomic hok hrun⟩
  · obtain ⟨b, hb⟩ := hx.lookup_of_pos hpos
    exact ⟨_, (hx.keys id b hb).2, fun c sb1 t halloc => hx.found hb halloc⟩
  · obtain ⟨b, hb⟩ := Finmap.mem_iff.mp hf
    obtain ⟨hpos, -, hnet⟩ := hx.cnt id b hb
    omega
  · have hin : (x.machine.member sh (x.machine.obj ko).koId).map ShareInfo.siKo = some ko ↔
        InShare sh x.machine f ko := by
      rw [member_eq hx.books, Option.map_map, InShare]
      rfl
    simp only [hin]
    exact hx.refs ko

/-- A share and a segment on a machine with two CPUs whose allocator fails at one call. -/
def shareMachine (call : ℕ) : Machine :=
  { (bareMachine 40 2 0).denying fun n => n == call with
    obj := fun p =>
      if p = 0 then { live := true, koId := 1, koType := .share, sh := { shMask := 31 } }
      else if p = 1 then { live := true, koId := 2, koType := .segment } else {} }

def shareStart (call : ℕ) : ShareRun := ⟨shareMachine call, shareMachine call, fun _ => 0⟩

lemma shareStart_init (call : ℕ) : (members 0).init (shareStart call) :=
  ⟨rfl, rfl, rfl, ⟨rfl, rfl, rfl⟩, fun _ => rfl, fun _ _ ha => absurd ha not_mem_nil, fun _ => rfl⟩

/-- Two imports and a removal that all succeed, and a removal of what is not there. -/
theorem membership_is_counted_imports : ∃ x, (members 0).Reach (fun x op => op.Counts 0 x) x ∧
    x.net 2 = 1 ∧ ∃ ko, (x.machine.obj ko).koId = 2 ∧
      ∀ c b t, shareBlobAlloc 0 (x.machine.at c) = (.ok b, t) →
        ∃ t', shareCoObj 0 2 none (x.machine.at c) = (.ok ko, t') := by
  obtain ⟨x, hx, hnet⟩ : ∃ x ∈ (members 0).run (fun x op => op.Counts 0 x)
      [⟨0, .importObj 1⟩, ⟨1, .importObj 1⟩, ⟨1, .removeObj 2⟩, ⟨0, .removeObj 3⟩]
      (shareStart 100), x.net 2 = 1 := by decide +kernel
  have hreach : (members 0).Reach (fun x op => op.Counts 0 x) x :=
    (System.Reach.start (shareStart_init 100)).run (fun _ _ => of_decide_eq_true) hx
  exact ⟨x, hreach, hnet, (membership_is_counted hreach).1 2 (by omega)⟩

/-- A removal that finds no blob for its action fails, but has lowered the count. The next removal
then succeeds and leaves the object where it was. -/
theorem failed_removal_lowers_count : ∃ x t u v, (members 0).Reachable x ∧
    (x.machine.member 0 2).map ShareInfo.siCnt = some 1 ∧
    shareRemoveObj 0 2 (x.machine.at 1) = (.err .noMem, t) ∧
    (t.member 0 2).map ShareInfo.siCnt = some 0 ∧
    shareRemoveObj 0 2 (t.at 0) = (.ok (), u) ∧
    shareCoObj 0 2 none (u.at 0) = (.ok 1, v) := by
  obtain ⟨x, hx, hcnt, ⟨_, t⟩, ht, rfl, hlow, ⟨_, u⟩, hu, ⟨_, v⟩, hv, rfl⟩ :
      ∃ x ∈ (members 0).run (fun _ _ => true) [⟨0, .importObj 1⟩] (shareStart 2),
        (x.machine.member 0 2).map ShareInfo.siCnt = some 1 ∧
        ∃ r ∈ (shareRemoveObj 0 2).reply (x.machine.at 1), r.1 = .error .noMem ∧
        (r.2.member 0 2).map ShareInfo.siCnt = some 0 ∧
        ∃ r' ∈ (shareRemoveObj 0 2).result (r.2.at 0),
        ∃ r'' ∈ (shareCoObj 0 2 none).result (r'.2.at 0), r''.1 = 1 := by decide +kernel
  exact ⟨x, t, u, v, (System.Reach.start (shareStart_init 2)).run (fun _ _ _ => trivial) hx, hcnt,
    reply_eq_error.mp ht, hlow, result_eq_some.mp hu, result_eq_some.mp hv⟩

end Corey.Kern
