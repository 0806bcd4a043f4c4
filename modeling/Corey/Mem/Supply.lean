import Corey.Mem.Allocator
import Corey.Mem.Walk

/-!
What a walk through a page tree asks of the allocator.

A walk allocates the indirect blocks on its way that the tree does not have, and nothing else. So
it is known beforehand how often it calls `page_alloc`, and whether the calls are going to
succeed is a matter of the memory it starts in.
-/

namespace Corey.Mem

open Function Corey.Comp Finset Pagetree Slot

variable {U : Finset Ppn} {R : Ledger} {m m' m'' : Memory} {pid k j n node l : ℕ} {p : Ppn}

/-! ### Calls that succeed -/

lemma scanNodes_lt : ∀ k j, j < m.nmemnode → scanNodes m node k j = some (some n) → n < m.nmemnode
  | 0, j, _, h => by
    rw [scanNodes] at h
    split_ifs at h
    cases h
  | k + 1, j, hj, h => by
    rw [scanNodes] at h
    split_ifs at h
    · cases h
    · cases h
      exact hj
    · exact scanNodes_lt k _ (Nat.mod_lt _ (Nat.zero_lt_of_lt hj)) h

namespace Memory

/-- The node that the next call of `page_alloc` takes a page from, if it succeeds. -/
def source (pid : ℕ) (m : Memory) : Option ℕ :=
  if m.deny m.calls then none
  else (pickNode m (archNodeByCpu m (if pid = 0xFFFFFFFF then m.cpu else pid))).join

/-- The next `k` calls succeed. -/
def grants (pid : ℕ) : ℕ → Memory → Bool
  | 0, _ => true
  | k + 1, m =>
    match m.source pid with
    | none => false
    | some node => grants pid k { m.removeHead node with calls := m.calls + 1 }

/-- What `page_alloc` decides by is the same. -/
structure Alike (m m' : Memory) : Prop where
  memnode : m'.memnode = m.memnode
  nodeid : m'.nodeid = m.nodeid
  cpu : m'.cpu = m.cpu
  freeList : m'.freeList = m.freeList
  calls : m'.calls = m.calls
  deny : m'.deny = m.deny

namespace Alike

lemma refl (m : Memory) : m.Alike m := ⟨rfl, rfl, rfl, rfl, rfl, rfl⟩

lemma trans (h : m.Alike m') (h' : m'.Alike m'') : m.Alike m'' :=
  ⟨h'.memnode.trans h.memnode, h'.nodeid.trans h.nodeid, h'.cpu.trans h.cpu,
    h'.freeList.trans h.freeList, h'.calls.trans h.calls, h'.deny.trans h.deny⟩

lemma source (h : m.Alike m') : m'.source pid = m.source pid := by
  have hscan : ∀ node k n, scanNodes m' node k n = scanNodes m node k n := by
    intro node k
    induction k with
    | zero => exact fun _ => rfl
    | succ k ih =>
      intro n
      simp only [scanNodes, h.freeList, nmemnode, h.memnode, ih]
  have hpick : ∀ node, pickNode m' node = pickNode m node := fun node => by
    rw [pickNode, pickNode, hscan, h.freeList, nmemnode, nmemnode, h.memnode]
  rw [Memory.source, Memory.source, h.deny, h.calls, hpick, archNodeByCpu, archNodeByCpu, h.nodeid,
    h.cpu]

lemma grants (h : m.Alike m') : m'.grants pid k = m.grants pid k := by
  induction k generalizing m m' with
  | zero => rfl
  | succ k ih =>
    rw [Memory.grants, Memory.grants, h.source]
    cases m.source pid with
    | none => rfl
    | some node =>
      refine ih ⟨h.memnode, h.nodeid, h.cpu, ?_, congrArg (· + 1) h.calls, h.deny⟩
      simp only [removeHead, h.freeList]

end Alike

def freePages (m : Memory) : ℕ := ∑ n ∈ Finset.range m.nmemnode, (m.freeList n).length

lemma freePages_update (m r : Memory) (hn : r.memnode = m.memnode) (hnode : node < m.nmemnode)
    {l : List Ppn} (hl : r.freeList = update m.freeList node l) :
    r.freePages + (m.freeList node).length = m.freePages + l.length := by
  have hold := add_sum_erase (range m.nmemnode) (fun n => (m.freeList n).length)
    (mem_range.mpr hnode)
  have hnew := add_sum_erase (range m.nmemnode) (fun n => (r.freeList n).length)
    (mem_range.mpr hnode)
  have hrest : ∑ n ∈ (range m.nmemnode).erase node, (r.freeList n).length =
      ∑ n ∈ (range m.nmemnode).erase node, (m.freeList n).length :=
    sum_congr rfl fun n hne => by
      rw [hl, update_of_ne (ne_of_mem_erase hne)]
  simp only [hl, update_self] at hnew hrest
  rw [freePages, freePages, nmemnode, hn, ← nmemnode, ← hold]
  simp only [hl]
  rw [← hnew, hrest]
  omega

lemma freePages_removeHead (hnode : node < m.nmemnode) (h : m.freeList node ≠ []) :
    (m.removeHead node).freePages + 1 = m.freePages := by
  have hupdate := freePages_update m (m.removeHead node) rfl hnode rfl
  have hlen := List.length_pos_iff.mpr h
  rw [List.length_tail] at hupdate
  omega

lemma freePages_insertHead (hnode : node < m.nmemnode) (p : Ppn) :
    (m.insertHead node p).freePages = m.freePages + 1 := by
  have hupdate := freePages_update m (m.insertHead node p) rfl hnode rfl
  rw [List.length_cons] at hupdate
  omega

lemma source_some (hw : ∀ pid, m.nodeid pid < m.nmemnode) (hs : m.source pid = some node) :
    m.deny m.calls = false ∧ node < m.nmemnode ∧ m.freeList node ≠ [] := by
  have hdeny : ¬ m.deny m.calls = true := fun hdeny => by
    rw [source, if_pos hdeny] at hs
    cases hs
  rw [source, if_neg hdeny, archNodeByCpu] at hs
  generalize (if pid = 0xFFFFFFFF then m.cpu else pid) = pid at hs
  have hpick := Option.join_eq_some_iff.mp hs
  refine ⟨Bool.eq_false_of_not_eq_true hdeny, ?_, pickNode_free hpick⟩
  rw [pickNode] at hpick
  split_ifs at hpick
  · cases hpick
    exact hw _
  · exact scanNodes_lt _ _ (Nat.mod_lt _ (Nat.zero_lt_of_lt (hw 0))) hpick

lemma source_none (hw : ∀ pid, m.nodeid pid < m.nmemnode) (hs : m.source pid = none) :
    m.deny m.calls = true ∨ m.freePages = 0 := by
  by_cases hdeny : m.deny m.calls = true
  · exact .inl hdeny
  right
  rw [source, if_neg hdeny, archNodeByCpu] at hs
  generalize (if pid = 0xFFFFFFFF then m.cpu else pid) = pid at hs
  rcases hpick : pickNode m (m.nodeid pid) with _ | _ | node
  · exact absurd hpick (pickNode_ne_none (hw pid))
  · exact sum_eq_zero fun n hn => by
      rw [pickNode_empty (hw pid) hpick (mem_range.mp hn), List.length_nil]
  · rw [hpick] at hs
    cases hs

lemma grants_iff (hw : ∀ pid, m.nodeid pid < m.nmemnode) :
    m.grants pid k = true ↔ k ≤ m.freePages ∧ ∀ i < k, m.deny (m.calls + i) = false := by
  induction k generalizing m with
  | zero => exact ⟨fun _ => ⟨Nat.zero_le _, fun i hi => absurd hi (Nat.not_lt_zero i)⟩,
    fun _ => rfl⟩
  | succ k ih =>
    rw [grants]
    cases hs : m.source pid with
    | none =>
      refine ⟨nofun, fun ⟨hfree, hdeny⟩ => ?_⟩
      rcases source_none hw hs with hno | hno
      · exact absurd ((hdeny 0 (Nat.succ_pos k)).symm.trans hno) nofun
      · omega
    | some node =>
      obtain ⟨hfirst, hnode, hpage⟩ := source_some hw hs
      have hfree : freePages { m.removeHead node with calls := m.calls + 1 } + 1 = m.freePages :=
        freePages_removeHead hnode hpage
      refine Iff.trans (ih hw) ?_
      refine ⟨fun ⟨hle, hdeny⟩ => ⟨by omega, fun i hi => ?_⟩,
        fun ⟨hle, hdeny⟩ => ⟨by omega, fun i hi => ?_⟩⟩
      · cases i with
        | zero => exact hfirst
        | succ i =>
          rw [Nat.add_comm i 1, ← Nat.add_assoc]
          exact hdeny i (by omega)
      · have := hdeny (i + 1) (by omega)
        rwa [Nat.add_comm i 1, ← Nat.add_assoc] at this

lemma grants_of_le (h : m.grants pid k = true) (hj : j ≤ k) : m.grants pid j = true := by
  induction j generalizing k m with
  | zero => rfl
  | succ j ih =>
    obtain ⟨k, rfl⟩ := Nat.exists_eq_succ_of_ne_zero (by omega : k ≠ 0)
    rw [grants] at h ⊢
    cases hs : m.source pid with
    | none =>
      rw [hs] at h
      cases h
    | some node =>
      rw [hs] at h
      exact ih h (by omega)

lemma not_grants_of_le (h : m.grants pid j = false) (hj : j ≤ k) : m.grants pid k = false := by
  by_contra hk
  rw [grants_of_le (Bool.eq_true_of_not_eq_false hk) hj] at h
  cases h

/-- `k` calls have been made since `m`, all of which have succeeded, and `f` pages have been given
back. -/
structure Trades (k f : ℕ) (m m' : Memory) : Prop where
  wired : ∀ pid, m.nodeid pid < m.nmemnode
  memnode : m'.memnode = m.memnode
  nodeid : m'.nodeid = m.nodeid
  calls : m'.calls = m.calls + k
  deny : m'.deny = m.deny
  allowed : ∀ i < k, m.deny (m.calls + i) = false
  free : m'.freePages + k = m.freePages + f

/-- No page has been given back. -/
abbrev Spends (k : ℕ) (m m' : Memory) : Prop := Trades k 0 m m'

namespace Trades

variable {f g : ℕ}

lemma wired' (h : Trades k f m m') : ∀ pid, m'.nodeid pid < m'.nmemnode := fun pid => by
  rw [h.nodeid, nmemnode, h.memnode]
  exact h.wired pid

lemma trans (h : Trades k f m m') (h' : Trades j g m' m'') : Trades (k + j) (f + g) m m'' where
  wired := h.wired
  memnode := h'.memnode.trans h.memnode
  nodeid := h'.nodeid.trans h.nodeid
  calls := by
    rw [h'.calls, h.calls]
    omega
  deny := h'.deny.trans h.deny
  allowed i hi := by
    rcases Nat.lt_or_ge i k with hlt | hge
    · exact h.allowed i hlt
    · have := h'.allowed (i - k) (by omega)
      rwa [h.deny, h.calls, Nat.add_assoc, Nat.add_sub_cancel' hge] at this
  free := by
    have := h.free
    have := h'.free
    omega

lemma grants (h : Spends k m m') : m'.grants pid j = m.grants pid (k + j) := by
  have hfree := h.free
  refine Bool.eq_iff_iff.mpr ((grants_iff h.wired').trans (Iff.trans ?_ (grants_iff h.wired).symm))
  refine ⟨fun ⟨hle, hdeny⟩ => ⟨by omega, fun i hi => ?_⟩,
    fun ⟨hle, hdeny⟩ => ⟨by omega, fun i hi => ?_⟩⟩
  · rcases Nat.lt_or_ge i k with hlt | hge
    · exact h.allowed i hlt
    · have := hdeny (i - k) (by omega)
      rwa [h.deny, h.calls, Nat.add_assoc, Nat.add_sub_cancel' hge] at this
  · rw [h.deny, h.calls, Nat.add_assoc]
    exact hdeny (k + i) (by omega)

end Trades

lemma Alike.freePages (h : m.Alike m') : m'.freePages = m.freePages := by
  rw [Memory.freePages, Memory.freePages, nmemnode, h.memnode, h.freeList]
  rfl

lemma Alike.spends (h : m.Alike m') (hw : ∀ pid, m.nodeid pid < m.nmemnode) : Spends 0 m m' where
  wired := hw
  memnode := h.memnode
  nodeid := h.nodeid
  calls := h.calls
  deny := h.deny
  allowed i hi := absurd hi (Nat.not_lt_zero i)
  free := h.freePages

lemma Trades.alike {f : ℕ} (h : Trades k f m m') (h' : m'.Alike m'') : Trades k f m m'' :=
  h.trans (h'.spends h.wired')

end Memory

open Memory

lemma pageAlloc_supply (pid : ℕ) (hw : ∀ pid, m.nodeid pid < m.nmemnode) :
    wp (pageAlloc pid) (fun _ m' => m.grants pid 1 = true ∧ Spends 1 m m')
      ⟨fun _ _ => m.grants pid 1 = false, fun _ _ => True⟩ m := by
  have hfail : m.source pid = none → m.grants pid 1 = false := fun h => by
    rw [Memory.grants, h]
  simp only [pageAlloc, pageAllocFail, wp_bind, wp_state, wp_change]
  by_cases hdeny : m.deny m.calls = true
  · rw [if_pos hdeny]
    exact hfail (by rw [source, if_pos hdeny])
  rw [if_neg hdeny]
  rcases hpick : pickNode m _ with _ | _ | node
  · trivial
  · exact hfail (by rw [source, if_neg hdeny, hpick]; rfl)
  · have hsource : m.source pid = some node := by
      rw [source, if_neg hdeny, hpick]
      rfl
    obtain ⟨hfirst, hnode, hpage⟩ := source_some hw hsource
    simp only [wp_bind, wp_need, wp_change, wp_require, wp_pure]
    refine ⟨fun p _ => ⟨fun _ => ⟨by rw [grants, hsource]; rfl,
      ⟨hw, rfl, rfl, rfl, rfl, fun i hi => ?_, ?_⟩⟩, fun _ => trivial⟩, fun _ => trivial⟩
    · rwa [Nat.lt_one_iff.mp hi]
    · exact freePages_removeHead hnode hpage

/-! ### The blocks on the way to a page -/

/-- A block below a slot is told by the places that lead to it. -/
def Slot.has : {l : ℕ} → Slot l → List ℕ → Bool
  | 0, _, _ => false
  | _ + 1, .null, _ => false
  | _ + 1, .block _ _, [] => true
  | _ + 1, .block _ f, i :: r => (f i).has r

/-- The blocks on the way to page `n` below a slot. -/
def wayBelow : ℕ → ℕ → Finset (List ℕ)
  | 0, _ => ∅
  | l + 1, n => insert [] ((wayBelow l (n % span l)).image (List.cons (n / span l)))

/-- How many of them there are not. -/
def Slot.lacks {l : ℕ} (s : Slot l) (n : ℕ) : ℕ := ((wayBelow l n).filter (s.has · = false)).card

lemma zeroSlot_has : ∀ (l : ℕ) (r : List ℕ), (zeroSlot l).has r = false
  | 0, _ => rfl
  | _ + 1, _ => rfl

lemma lacks_succ (s : Slot (l + 1)) (n : ℕ) : s.lacks n = (if s.has [] = false then 1 else 0) +
      ((wayBelow l (n % span l)).filter fun r => s.has (n / span l :: r) = false).card := by
  have hnot : [] ∉ ((wayBelow l (n % span l)).image (List.cons (n / span l))).filter
      (s.has · = false) := by simp
  rw [lacks, wayBelow, filter_insert, filter_image]
  rw [filter_image] at hnot
  split_ifs with h
  · rw [card_insert_of_notMem hnot, card_image_of_injective _ (List.cons_injective), Nat.add_comm]
  · rw [card_image_of_injective _ (List.cons_injective), Nat.zero_add]

lemma lacks_null (n : ℕ) : (null : Slot (l + 1)).lacks n = 1 + (zeroSlot l).lacks (n % span l) := by
  rw [lacks_succ, if_pos (by rfl)]
  simp only [lacks, zeroSlot_has, has]

lemma lacks_block (p : Ppn) (f : ℕ → Slot l) (n : ℕ) :
    (block p f).lacks n = (f (n / span l)).lacks (n % span l) := by
  rw [lacks_succ, if_neg (by simp [has]), Nat.zero_add]
  rfl

@[simp] lemma nil_mem_wayBelow : [] ∈ wayBelow (l + 1) n := mem_insert_self _ _

@[simp] lemma cons_mem_wayBelow {i : ℕ} {r : List ℕ} :
    i :: r ∈ wayBelow (l + 1) n ↔ i = n / span l ∧ r ∈ wayBelow l (n % span l) := by
  simp only [wayBelow, mem_insert, mem_image, List.cons.injEq, reduceCtorEq, false_or]
  constructor
  · rintro ⟨r', hr', rfl, rfl⟩
    exact ⟨rfl, hr'⟩
  · rintro ⟨rfl, hr⟩
    exact ⟨r, hr, rfl, rfl⟩

lemma ensureBlock_supply (pid : ℕ) (hw : ∀ pid, m.nodeid pid < m.nmemnode) :
    wp (ensureBlock pid : PtM (Slot (l + 1)) Unit)
      (fun _ t => (∃ q, t.1 = zeroBlock l q) ∧ m.grants pid 1 = true ∧ Spends 1 m t.2)
      ⟨fun _ t => m.grants pid 1 = false ∧ t.1 = .null, fun _ _ => True⟩ (.null, m) := by
  simp only [ensureBlock, wp_rules, isNull, if_true, wp_shared, pageZero]
  exact wp_mono (pageAlloc_supply pid hw) (fun q m1 h1 =>
    ⟨⟨q, rfl⟩, h1.1, h1.2.alike ⟨rfl, rfl, rfl, rfl, rfl, rfl⟩⟩) (fun _ _ h1 => ⟨h1, rfl⟩)

lemma pagetreeGetEntpIndirect_supply (pid : ℕ) : ∀ (l n : ℕ) (s : Slot l) (m : Memory),
    (∀ pid, m.nodeid pid < m.nmemnode) →
    wp (pagetreeGetEntpIndirect pid l n)
      (fun _ t => (m.grants pid (s.lacks n) = true ∧ Spends (s.lacks n) m t.2 ∧
        ∀ r, t.1.has r = true ↔ s.has r = true ∨ r ∈ wayBelow l n) ∧
        (s.lacks n = 0 → t.1 = s))
      ⟨fun _ t => m.grants pid (s.lacks n) = false ∧ (m.grants pid 1 = false → t.1 = s),
        fun _ _ => True⟩ (s, m)
  | 0, n, s, m, hw => ⟨⟨rfl, (Alike.refl m).spends hw, fun r => by simp [wayBelow]⟩, fun _ => rfl⟩
  | l + 1, n, s, m, hw => by
    have hbelow : ∀ (q : Ppn) (f : ℕ → Slot l) (m1 : Memory),
        (∀ pid, m1.nodeid pid < m1.nmemnode) → wp (do
        require (l = 0 → n < width 0)
        focus (below (n / span l)) (pagetreeGetEntpIndirect pid l (n % span l)))
        (fun _ t => (m1.grants pid ((block q f).lacks n) = true ∧
          Spends ((block q f).lacks n) m1 t.2 ∧
          ∀ r, t.1.has r = true ↔ (block q f).has r = true ∨ r ∈ wayBelow (l + 1) n) ∧
          ((block q f).lacks n = 0 → t.1 = .block q f))
        ⟨fun _ t => m1.grants pid ((block q f).lacks n) = false ∧
          (m1.grants pid 1 = false → t.1 = .block q f), fun _ _ => True⟩ (.block q f, m1) := by
      intro q f m1 hw1
      have hsame : ∀ s', s' = f (n / span l) → block q (update f (n / span l) s') = .block q f := by
        rintro _ rfl
        rw [update_eq_self]
      simp only [wp_rules, wp_focus, lacks_block]
      refine ⟨fun _ => ?_, fun _ => trivial⟩
      refine wp_mono (pagetreeGetEntpIndirect_supply pid l (n % span l) (f (n / span l)) m1 hw1)
        (fun _ t ht => ⟨⟨ht.1.1, ht.1.2.1, fun r => ?_⟩, fun h0 => hsame _ (ht.2 h0)⟩)
        fun _ t ht => ⟨ht.1, fun h1 => hsame _ (ht.2 h1)⟩
      change (block q (update f (n / span l) t.1)).has r = true ↔ _
      cases r with
      | nil => simp [has]
      | cons i r =>
        rw [cons_mem_wayBelow]
        by_cases hi : i = n / span l
        · subst hi
          simp [has, ht.1.2.2 r]
        · simp [has, hi]
    rw [pagetreeGetEntpIndirect, wp_bind]
    cases s with
    | block q f => exact hbelow q f m hw
    | null =>
      refine wp_mono (ensureBlock_supply pid hw) (fun _ t ht => ?_) fun _ t h1 => ?_
      · obtain ⟨s1, m1⟩ := t
        obtain ⟨⟨q, rfl⟩, hone, hspent⟩ := ht
        rw [lacks_null]
        refine wp_mono (hbelow q (fun _ => zeroSlot l) m1 hspent.wired') (fun _ t ht => ?_)
          fun _ t ht => ?_
        · obtain ⟨⟨hg, hs, hr⟩, -⟩ := ht
          rw [lacks_block] at hg hs
          rw [hspent.grants] at hg
          refine ⟨⟨hg, hspent.trans hs, fun r => (hr r).trans ?_⟩, fun h0 => by omega⟩
          cases r <;> simp [has, zeroSlot_has]
        · rw [lacks_block, hspent.grants] at ht
          exact ⟨ht.1, fun hno => absurd (hone.symm.trans hno) (by simp)⟩
      · rw [lacks_null]
        exact ⟨not_grants_of_le h1.1 (Nat.le_add_right _ _), fun _ => h1.2⟩

/-! ### Trees -/

/-- An indirect block of a tree: which of its slots it is below, and where. -/
abbrev BlockId := ℕ × List ℕ

def way (npage : ℕ) : Finset BlockId :=
  match locate npage with
  | some (.indirect i n) => (wayBelow (i + 1) n).image (Prod.mk i)
  | _ => ∅

/-- The blocks on the ways to the pages from `i` on below `j`. -/
def ways (i j : ℕ) : Finset BlockId := (Finset.Ico i j).biUnion way

@[simp] lemma ways_self (i : ℕ) : ways i i = ∅ := by simp [ways]

lemma ways_succ {i j : ℕ} (h : i ≤ j) : ways i (j + 1) = ways i j ∪ way j := by
  rw [ways, ways, Finset.Ico_add_one_right_eq_Icc, ← Finset.Ico_insert_right h,
    biUnion_insert, union_comm]

lemma ways_mono {i j k : ℕ} (h : j ≤ k) : ways i j ⊆ ways i k :=
  biUnion_subset_biUnion_of_subset_left _ (Finset.Ico_subset_Ico_right h)

def Pagetree.has (pt : Pagetree) (b : BlockId) : Bool := (pt.ptIndir b.1).has b.2

/-- The blocks in `A` that a tree does not have. -/
def Pagetree.missing (pt : Pagetree) (A : Finset BlockId) : Finset BlockId :=
  A.filter (pt.has · = false)

/-- `pt'` has the blocks in `A` besides those `pt` has. -/
def Pagetree.Gains (A : Finset BlockId) (pt pt' : Pagetree) : Prop :=
  ∀ b, pt'.has b = true ↔ pt.has b = true ∨ b ∈ A

variable {pt pt' pt'' : Pagetree} {A B : Finset BlockId} {npage : ℕ} {x : EntPtr}

lemma Pagetree.missing_init {demand : Bool} (A : Finset BlockId) :
    (pagetreeInit demand pid).missing A = A :=
  filter_true_of_mem fun _ _ => rfl

lemma Pagetree.missing_mono (h : A ⊆ B) : pt.missing A ⊆ pt.missing B :=
  filter_subset_filter _ h

lemma Pagetree.missing_eq_empty_mono (h : A ⊆ B) (hB : pt.missing B = ∅) : pt.missing A = ∅ :=
  subset_empty.mp (hB ▸ missing_mono h)

lemma Pagetree.Gains.trans (h : pt.Gains A pt') (h' : pt'.Gains B pt'') : pt.Gains (A ∪ B) pt'' :=
  fun b => by rw [h' b, h b, mem_union, or_assoc]

/-- What is missing of two sets is missing of the first, or of the second when the tree has the
first. -/
lemma Pagetree.Gains.card_missing (h : pt.Gains A pt') :
    (pt.missing (A ∪ B)).card = (pt.missing A).card + (pt'.missing B).card := by
  have hsplit : pt.missing (A ∪ B) = pt.missing A ∪ pt'.missing B := by
    ext b
    have hb := h b
    simp only [missing, mem_filter, mem_union, ← Bool.not_eq_true, hb]
    tauto
  have hdisj : Disjoint (pt.missing A) (pt'.missing B) := by
    refine disjoint_left.mpr fun b hA hB => ?_
    simp only [missing, mem_filter] at hA hB
    rw [(h b).mpr (.inr hA.1)] at hB
    cases hB.2
  rw [hsplit, card_union_of_disjoint hdisj]

/-- The calls a walk to `npage` makes have all succeeded. -/
structure Paid (npage : ℕ) (pt : Pagetree) (m : Memory) (t : Pagetree × Memory) : Prop where
  grants : m.grants pt.pid (pt.missing (way npage)).card = true
  spends : Spends (pt.missing (way npage)).card m t.2
  gains : pt.Gains (way npage) t.1

/-- There is no place for the page, or one of the calls has failed. If it was the first one, the
tree has not changed. -/
def Unpaid (npage : ℕ) (pt : Pagetree) (m : Memory) (t : Pagetree × Memory) : Prop :=
  treePages ≤ npage ∧ t.1 = pt ∨ m.grants pt.pid (pt.missing (way npage)).card = false ∧
    (m.grants pt.pid 1 = false → t.1 = pt)

/-- **What a walk costs.** As many calls as there are blocks missing on the way. -/
lemma pagetreeGetEntp_supply (pt : Pagetree) (hw : ∀ pid, m.nodeid pid < m.nmemnode)
    (npage : ℕ) :
    wp (pagetreeGetEntp npage)
      (fun _ t => Paid npage pt m t ∧ (pt.missing (way npage) = ∅ → t.1 = pt))
      ⟨fun _ t => Unpaid npage pt m t, fun _ _ => True⟩ (pt, m) := by
  rw [pagetreeGetEntp]
  rcases hloc : locate npage with _ | ⟨i⟩ | ⟨i, n⟩
  · exact .inl ⟨locate_eq_none.mp hloc, rfl⟩
  · have hempty : way npage = ∅ := by rw [way, hloc]
    refine ⟨⟨?_, ?_, fun b => by simp [hempty]⟩, fun _ => rfl⟩
    · rw [hempty]
      rfl
    · rw [hempty]
      exact (Alike.refl m).spends hw
  · have hsome : way npage = (wayBelow (i + 1) n).image (Prod.mk i) := by rw [way, hloc]
    have hcard : (pt.missing ((wayBelow (i + 1) n).image (Prod.mk i))).card =
        (pt.ptIndir i).lacks n := by
      rw [Pagetree.missing, Finset.filter_image,
        Finset.card_image_of_injective _ (Prod.mk_right_injective i)]
      rfl
    rw [← hsome] at hcard
    have hsame : ∀ x, x = pt.ptIndir i → (indirAt i).set x pt = pt := by
      rintro _ rfl
      simp only [indirAt, update_eq_self]
    simp only [wp_rules, wp_focus]
    refine wp_mono (pagetreeGetEntpIndirect_supply pt.pid (i + 1) n (pt.ptIndir i) m hw)
      (fun _ t ht => ?_) (fun _ t ht => .inr ?_)
    · rw [← hcard] at ht
      refine ⟨⟨ht.1.1, ht.1.2.1, ?_⟩, fun h0 => hsame _ (ht.2 (by rw [h0]; rfl))⟩
      rintro ⟨j, r⟩
      rw [hsome]
      by_cases hj : j = i
      · subst hj
        simp [Pagetree.has, indirAt, ht.1.2.2 r]
      · simp [Pagetree.has, indirAt, hj, Ne.symm hj]
    · rw [← hcard] at ht
      exact ⟨ht.1, fun h1 => hsame _ (ht.2 h1)⟩

lemma Slot.setEntry_has (e : PagetreeEntry) : ∀ {l : ℕ} (s : Slot l) (n : ℕ) (r : List ℕ),
    (s.setEntry n e).has r = s.has r
  | 0, .ent _, _, _ => rfl
  | _ + 1, .null, _, _ => rfl
  | _ + 1, .block _ _, _, [] => rfl
  | l + 1, .block _ f, n, i :: r => by
    by_cases hi : i = n / span l
    · subst hi
      simp only [setEntry, has, update_self]
      exact setEntry_has e _ _ _
    · simp only [setEntry, has, update_of_ne hi]

lemma Pagetree.set_has (pt : Pagetree) (e : PagetreeEntry) (x : EntPtr) (b : BlockId) :
    (pt.set e x).has b = pt.has b := by
  cases x with
  | direct i => rfl
  | indirect i n =>
    by_cases hi : b.1 = i
    · obtain ⟨i, r⟩ := b
      subst hi
      simp only [set, has, update_self]
      exact setEntry_has e _ _ _
    · simp only [set, has, update_of_ne hi]

lemma Slot.lacks_of_reached : ∀ {l : ℕ} (s : Slot l) (n : ℕ), s.Reached n → s.lacks n = 0
  | 0, _, _, _ => rfl
  | _ + 1, .null, _, h => h.elim
  | l + 1, .block p f, n, h => by
    rw [lacks_block]
    exact lacks_of_reached (f (n / span l)) (n % span l) h

lemma Pagetree.missing_of_reached (hx : locate npage = some x)
    (hr : pt.Reached x) : pt.missing (way npage) = ∅ := by
  rw [way, hx]
  cases x with
  | direct i => rfl
  | indirect i n =>
    have h0 := lacks_of_reached (pt.ptIndir i) n hr
    rw [lacks, card_eq_zero] at h0
    rw [missing, filter_image, image_eq_empty]
    exact h0

/-- The pages that are blocks of the two trees are the same. -/
def Pagetree.SameNodes (pt pt' : Pagetree) : Prop := ∀ q, pt'.ledger (.node q) = pt.ledger (.node q)

lemma Pagetree.SameNodes.set (hx : x.Valid) (hr : pt.Reached x) (e : PagetreeEntry) :
    pt.SameNodes (pt.set e x) := fun q => by
  have hent : ∀ e : PagetreeEntry, e.ledger (.node q) = 0 := fun e => by
    cases hp : e.page with
    | none => rw [ledger_of_null hp]; rfl
    | some p => rw [ledger_of_page hp, one_apply]; simp
  rw [ledger_set hx hr, ledger_split hx hr, Pi.add_apply, Pi.add_apply, hent, hent]

lemma pagetreePutPage_supply {page : Option Ppn} (h : Balanced U m (pt.ledger + (inHand page + R)))
    (hfit : Fits m (pt.ledger + (inHand page + R))) : wp (pagetreePutPage npage page)
      (fun _ t => ((∀ x, locate npage = some x → (pt.get x).page = none) → Paid npage pt m t) ∧
        (pt.missing (way npage) = ∅ → pt.SameNodes t.1))
      ⟨fun _ t => Unpaid npage pt m t, fun _ _ => False⟩ (pt, m) := by
  rw [pagetreePutPage, wp_bind]
  refine wp_imp (wp_and (pagetreeGetEntp_spec h npage) (pagetreeGetEntp_supply pt h.wired npage))
    (fun x t ht => ?_) (fun _ _ ht => ht.2) fun _ _ ht => ht.1
  obtain ⟨pt1, m1⟩ := t
  obtain ⟨⟨hloc, hwalk, hreach, -⟩, hpaid, hsame⟩ := ht
  have hvalid := locate_valid hloc
  have hnodes : ∀ e, pt.missing (way npage) = ∅ → pt.SameNodes (pt1.set e x) := fun e h0 => by
    obtain rfl : pt1 = pt := hsame h0
    exact .set hvalid hreach e
  simp only [wp_focus]
  by_cases hempty : (pt1.get x).page = none
  · have hdone : ∀ m2, m1.Alike m2 → Paid npage pt m (pt1.set ⟨page, pageExcl⟩ x, m2) :=
      fun m2 h2 => ⟨hpaid.grants, hpaid.spends.alike h2, fun b => by
        rw [set_has]
        exact hpaid.gains b⟩
    simp only [pagetreePutEnt, wp_rules, wp_shared]
    rw [pagetreeFreeEnt_none (e := (entAt x).get pt1) hempty]
    cases page with
    | none => exact ⟨fun _ => hdone _ (.refl _), hnodes _⟩
    | some q => exact ⟨fun _ => hdone _ ⟨rfl, rfl, rfl, rfl, rfl, rfl⟩, hnodes _⟩
  · have hsub : pt1.ledger + (inHand page + R) =
        (pt1.get x).ledger + (inHand page + (pt1.others x + R)) := by
      rw [ledger_split hvalid hreach, add_assoc, add_left_comm (pt1.others x)]
    have hb := hwalk.balanced
    have hf := hfit.of_walked hwalk
    rw [hsub] at hb hf
    refine wp_of_never (pagetreePutEnt_spec hb hf)
      fun _ t ht => ⟨fun hno => (hempty ?_).elim, hnodes _⟩
    rw [hwalk.same.get x hvalid]
    exact hno x hloc

end Corey.Mem
