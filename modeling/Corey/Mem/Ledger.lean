import Corey.Mem.Pagetree
import Mathlib.Algebra.BigOperators.Pi
import Mathlib.Algebra.Order.BigOperators.Group.Finset

/-!
Who uses a page.

A ledger counts the uses of each page: an entry that holds it, a parent slot that points to it
as a block, a caller that has it in hand. A memory is balanced against a ledger when every
managed page is free, or is used as one block, or is in one hand, or has entries and pins, and
is only one of these; and when the counts and flags of its `page_info` say so. Each operation
on a page is described by what it does to a ledger the memory is balanced against.
-/

namespace Corey.Mem

open Corey.Comp Memory

inductive Use
  | ent (p : Ppn)
  | node (p : Ppn)
  | held (p : Ppn)
  deriving DecidableEq

abbrev Ledger := Use → ℕ

def one (u : Use) : Ledger := Pi.single u 1

lemma one_apply (u v : Use) : one u v = if v = u then 1 else 0 := by
  simp [one, Pi.single_apply]

namespace Memory

def freeCount (m : Memory) (p : Ppn) : ℕ :=
  match archNodeByAddr m p with
  | some n => (m.freeList n).count p
  | none => 0

/-- The references to a page: the entries a ledger counts and the hardware pins. -/
def refs (m : Memory) (L : Ledger) (p : Ppn) : ℕ := L (.ent p) + (m.info p).piHwRef

variable (m : Memory) (p q : Ppn) (i : PageInfo)

@[simp] lemma freeCount_setInfo : (m.setInfo p i).freeCount q = m.freeCount q := rfl

end Memory

/-- What the balance asks of one page, where `U` is the set of managed pages. -/
structure Accounted (U : Finset Ppn) (m : Memory) (L : Ledger) (p : Ppn) : Prop where
  once : m.freeCount p + L (.node p) + L (.held p) + min 1 (m.refs L p) =
    if p ∈ U then 1 else 0
  ref : (m.info p).piRef = m.refs L p % word32
  free : (m.info p).piFreepage = true ↔ 0 < m.freeCount p
  clear : 0 < m.freeCount p → (m.info p).piClear = false
  hwpage : p ∈ U → (m.info p).piHwpage = false

structure Balanced (U : Finset Ppn) (m : Memory) (L : Ledger) : Prop where
  wired : ∀ pid, m.nodeid pid < m.nmemnode
  range : ∀ p ∈ U, ∃ n, archNodeByAddr m p = some n
  home : ∀ n p, p ∈ m.freeList n → archNodeByAddr m p = some n
  page : ∀ p, Accounted U m L p

/-- No counter of a page is full. -/
def Fits (m : Memory) (L : Ledger) : Prop := ∀ p, m.refs L p < word32

/-- What the users in `L` see of the memory is the same. -/
structure Kept (L : Ledger) (m m' : Memory) : Prop where
  bytes : ∀ p, 0 < L (.ent p) → m'.bytes p = m.bytes p
  clear : ∀ p, 0 < L (.ent p) → (m'.info p).piClear = (m.info p).piClear
  hw : ∀ p, (m'.info p).piHwRef = (m.info p).piHwRef
  failures : m.failures ≤ m'.failures
  cpu : m'.cpu = m.cpu

lemma Kept.refl (L : Ledger) (m : Memory) : Kept L m m :=
  ⟨fun _ _ => rfl, fun _ _ => rfl, fun _ => rfl, Nat.le_refl _, rfl⟩

lemma Kept.trans {L : Ledger} {m m' m'' : Memory} (h : Kept L m m') (h' : Kept L m' m'') :
    Kept L m m'' :=
  ⟨fun p hp => (h'.bytes p hp).trans (h.bytes p hp),
   fun p hp => (h'.clear p hp).trans (h.clear p hp),
   fun p => (h'.hw p).trans (h.hw p), Nat.le_trans h.failures h'.failures, h'.cpu.trans h.cpu⟩

lemma Kept.mono {L L' : Ledger} {m m' : Memory} (h : Kept L m m')
    (hL : ∀ p, 0 < L' (.ent p) → 0 < L (.ent p)) : Kept L' m m' :=
  ⟨fun p hp => h.bytes p (hL p hp), fun p hp => h.clear p (hL p hp), h.hw, h.failures, h.cpu⟩

lemma Kept.of_add_left {L L' : Ledger} {m m' : Memory} (h : Kept (L + L') m m') :
    Kept L' m m' := h.mono fun p hp => by simp only [Pi.add_apply]; omega

lemma Kept.of_add_right {L L' : Ledger} {m m' : Memory} (h : Kept (L + L') m m') :
    Kept L m m' := h.mono fun p hp => by simp only [Pi.add_apply]; omega

lemma Kept.refs {L : Ledger} {m m' : Memory} (h : Kept L m m') (L' : Ledger) (p : Ppn) :
    m'.refs L' p = m.refs L' p := by
  simp only [Memory.refs, h.hw]

lemma Fits.mono {m m' : Memory} {L L' : Ledger} (h : Fits m L)
    (hL : ∀ p, m'.refs L' p ≤ m.refs L p) : Fits m' L' :=
  fun p => Nat.lt_of_le_of_lt (hL p) (h p)

lemma Fits.of_kept {m m' : Memory} {L L' R : Ledger} (h : Fits m L) (hk : Kept R m m')
    (hL : ∀ p, L' (.ent p) ≤ L (.ent p)) : Fits m' L' :=
  h.mono fun p => by
    have := hL p
    simp only [refs, hk.hw]
    omega

section

variable {U : Finset Ppn} {m m' : Memory} {L L' : Ledger} {p q : Ppn} {n : ℕ} {rest : List Ppn}

lemma Accounted.congr (h : Accounted U m L p) (hf : m'.freeCount p = m.freeCount p)
    (hi : m'.info p = m.info p) (he : L' (.ent p) = L (.ent p))
    (hn : L' (.node p) = L (.node p)) (hh : L' (.held p) = L (.held p)) :
    Accounted U m' L' p := by
  have hr : m'.refs L' p = m.refs L p := by simp only [refs, he, hi]
  constructor
  · rw [hf, hn, hh, hr]; exact h.once
  · rw [hi, hr]; exact h.ref
  · rw [hi, hf]; exact h.free
  · rw [hi, hf]; exact h.clear
  · rw [hi]; exact h.hwpage

namespace Balanced

lemma freeCount_pos (h : Balanced U m L) (hp : p ∈ m.freeList n) : 0 < m.freeCount p := by
  simp only [freeCount, h.home n p hp]
  exact List.count_pos_iff.mpr hp

lemma once_le (h : Balanced U m L) (p : Ppn) :
    m.freeCount p + L (.node p) + L (.held p) + min 1 (m.refs L p) ≤ 1 := by
  rw [(h.page p).once]
  split_ifs <;> omega

lemma not_mem_freeList (h : Balanced U m L)
    (hp : 0 < L (.ent p) ∨ 0 < L (.node p) ∨ 0 < L (.held p)) (n : ℕ) :
    p ∉ m.freeList n := by
  intro hn
  have := h.freeCount_pos hn
  have hone := h.once_le p
  simp only [refs] at hone
  omega

lemma mem_of_refs (h : Balanced U m L) (hp : 0 < m.refs L p) : p ∈ U := by
  have := (h.page p).once
  by_contra hU
  rw [if_neg hU] at this
  omega

lemma mem_of_used (h : Balanced U m L)
    (hp : 0 < L (.ent p) ∨ 0 < L (.node p) ∨ 0 < L (.held p)) : p ∈ U := by
  have := (h.page p).once
  simp only [refs] at this
  by_contra hU
  rw [if_neg hU] at this
  omega

lemma held_alone (h : Balanced U m (L + one (.held p))) :
    L (.ent p) = 0 ∧ L (.node p) = 0 ∧ L (.held p) = 0 ∧ (m.info p).piHwRef = 0 ∧
      m.freeCount p = 0 := by
  have := h.once_le p
  simp [refs, one_apply] at this
  omega

lemma update (h : Balanced U m L) (hn : m'.memnode = m.memnode) (hi : m'.nodeid = m.nodeid)
    (hf : m'.freeList = m.freeList) (hq : ∀ q, q ≠ p → m'.info q = m.info q)
    (hL : ∀ q, q ≠ p → L' (.ent q) = L (.ent q) ∧ L' (.node q) = L (.node q) ∧
      L' (.held q) = L (.held q))
    (hp : m'.freeCount p = m.freeCount p → Accounted U m' L' p) : Balanced U m' L' := by
  have hnode : archNodeByAddr m' = archNodeByAddr m := by
    funext p
    simp only [archNodeByAddr, hn]
  have hcount : ∀ p, m'.freeCount p = m.freeCount p := fun p => by
    simp only [freeCount, hnode, hf]
  refine ⟨fun pid => ?_, ?_, ?_, fun q => ?_⟩
  · simpa only [hi, nmemnode, hn] using h.wired pid
  · simpa only [hnode] using h.range
  · simpa only [hf, hnode] using h.home
  · by_cases hqp : q = p
    · subst hqp; exact hp (hcount q)
    · exact (h.page q).congr (hcount q) (hq q hqp) (hL q hqp).1 (hL q hqp).2.1 (hL q hqp).2.2

lemma relabel (h : Balanced U m L) (he : ∀ p, L' (.ent p) = L (.ent p))
    (hu : ∀ p, L' (.node p) + L' (.held p) = L (.node p) + L (.held p)) : Balanced U m L' := by
  refine ⟨h.wired, h.range, h.home, fun p => ?_⟩
  have hacc := h.page p
  have hrefs : m.refs L' p = m.refs L p := by simp only [refs, he]
  refine ⟨?_, ?_, hacc.free, hacc.clear, hacc.hwpage⟩
  · rw [hrefs, Nat.add_assoc (m.freeCount p), hu, ← Nat.add_assoc]
    exact hacc.once
  · rw [hrefs]
    exact hacc.ref

lemma congr (h : Balanced U m L) (hn : m'.memnode = m.memnode) (hi : m'.nodeid = m.nodeid)
    (hf : m'.freeList = m.freeList) (hinfo : m'.info = m.info) : Balanced U m' L :=
  h.update (p := 0) hn hi hf (fun q _ => congrFun hinfo q) (fun _ _ => ⟨rfl, rfl, rfl⟩)
    fun hc => (h.page 0).congr hc (congrFun hinfo 0) rfl rfl rfl

lemma setBytes (h : Balanced U m L) (p : Ppn) (b : Page) : Balanced U (m.setBytes p b) L :=
  h.congr rfl rfl rfl rfl

lemma setClear (h : Balanced U m L) (hp : m.freeCount p = 0) :
    Balanced U (m.setInfo p { m.info p with piClear := true }) L := by
  refine h.update (p := p) rfl rfl rfl (fun q hq => by simp [hq])
    (fun _ _ => ⟨rfl, rfl, rfl⟩) fun _ => ?_
  have hacc := h.page p
  constructor
  · simpa [refs] using hacc.once
  · simpa [refs] using hacc.ref
  · simpa using hacc.free
  · simp [hp]
  · simpa using hacc.hwpage

end Balanced

/-! ### The allocator -/

lemma freeCount_cons (hnode : archNodeByAddr m' = archNodeByAddr m)
    (hp : archNodeByAddr m p = some n)
    (hl : m'.freeList = Function.update m.freeList n (p :: m.freeList n)) (q : Ppn) :
    m'.freeCount q = m.freeCount q + if q = p then 1 else 0 := by
  simp only [freeCount, hnode, hl]
  cases hq : archNodeByAddr m q with
  | none =>
    have : q ≠ p := by rintro rfl; simp [hp] at hq
    simp [this]
  | some k =>
    by_cases hk : k = n
    · subst hk
      by_cases hqp : p = q
      · simp [hqp]
      · simp [hqp, Ne.symm hqp]
    · have : q ≠ p := by rintro rfl; simp [hp] at hq; exact hk hq.symm
      simp [hk, this]

lemma freeCount_insertHead (hp : archNodeByAddr m p = some n) :
    ∀ q, (m.insertHead n p).freeCount q = m.freeCount q + if q = p then 1 else 0 :=
  freeCount_cons rfl hp rfl

lemma freeCount_removeHead (hp : archNodeByAddr m p = some n) (hd : m.freeList n = p :: rest) :
    ∀ q, m.freeCount q = (m.removeHead n).freeCount q + if q = p then 1 else 0 :=
  freeCount_cons rfl hp (by simp [removeHead, hd])

lemma Balanced.insertHead (h : Balanced U m (L + one (.held p)))
    (hn : archNodeByAddr m p = some n) :
    let m' := (m.setInfo p { m.info p with piFreepage := true, piClear := false }).insertHead n p
    Balanced U m' L ∧ Kept L m m' := by
  intro m'
  obtain ⟨hent, hnode, hheld, hhw, hfree⟩ := h.held_alone
  have hcount : ∀ q, m'.freeCount q = m.freeCount q + if q = p then 1 else 0 :=
    freeCount_insertHead (m := m.setInfo p _) hn
  have hinfo : m'.info = Function.update m.info p
      { m.info p with piFreepage := true, piClear := false } := rfl
  constructor
  · refine ⟨h.wired, h.range, fun k q hq => ?_, fun q => ?_⟩
    · by_cases hk : k = n
      · subst hk
        have hq' : q = p ∨ q ∈ m.freeList k := by
          simpa [m', Memory.insertHead] using hq
        rcases hq' with rfl | hq'
        · exact hn
        · exact h.home k q hq'
      · exact h.home k q (by simpa [m', Memory.insertHead, hk] using hq)
    · have hacc := h.page q
      by_cases hq : q = p
      · subst hq
        refine ⟨?_, ?_, ?_, ?_, ?_⟩
        · simpa [hcount, Memory.refs, hinfo, one_apply, hent, hhw, hnode, hheld, hfree] using
            hacc.once
        · simpa [Memory.refs, hinfo, one_apply] using hacc.ref
        · simp [hcount, hinfo]
        · simp [hinfo]
        · simpa [hinfo] using hacc.hwpage
      · refine hacc.congr ?_ ?_ ?_ ?_ ?_ <;> simp [hcount, hinfo, hq, one_apply]
  · refine ⟨fun q hq => ?_, fun q hq => ?_, fun q => ?_, Nat.le_refl _, rfl⟩
    · have hqp : q ≠ p := by rintro rfl; omega
      have hqn : q ∉ m.freeList n := h.not_mem_freeList (Or.inl (by simp [one_apply, hq])) n
      have : q ∉ p :: (m.freeList n).take 1 := by
        simp only [List.mem_cons, not_or]
        exact ⟨hqp, fun hmem => hqn (List.mem_of_mem_take hmem)⟩
      simp [m', Memory.insertHead, Memory.relinked, this]
    · have hqp : q ≠ p := by rintro rfl; omega
      simp [hinfo, hqp]
    · by_cases hq : q = p
      · subst hq; simp [hinfo]
      · simp [hinfo, hq]

lemma pageFree_spec (h : Balanced U m (L + one (.held p))) :
    wp (pageFree p) (fun _ m' => Balanced U m' L ∧ Kept L m m' ∧ m'.failures = m.failures)
      .never m := by
  have hU : p ∈ U := h.mem_of_used (by simp [one_apply])
  have hflag : (m.info p).piFreepage = false := by
    simpa [h.held_alone.2.2.2.2] using (h.page p).free
  obtain ⟨n, hn⟩ := h.range p hU
  simp only [pageFree, wp_bind, wp_state]
  rw [if_neg (by simp [(h.page p).hwpage hU])]
  simp only [wp_bind, wp_need, hn, wp_require, wp_change]
  refine ⟨fun k hk => ⟨fun _ => ?_, fun hno => (hno hflag).elim⟩, by simp⟩
  cases hk
  exact ⟨(h.insertHead hn).1, (h.insertHead hn).2, rfl⟩

/-- From `j` steps past `node` the search comes back to `node` before it runs out. -/
lemma scanNodes_ne_none {node : ℕ} (hnode : node < m.nmemnode) :
    ∀ k j, j ≤ m.nmemnode → m.nmemnode ≤ j + k → scanNodes m node k ((node + j) % m.nmemnode) ≠ none
  | 0, j, hj, hk => by
    have : j = m.nmemnode := by omega
    simp [scanNodes, this, Nat.mod_eq_of_lt hnode]
  | k + 1, j, hj, hk => by
    rw [scanNodes]
    split_ifs with hback hfree
    · simp
    · simp
    · have hlt : j < m.nmemnode := by
        rcases Nat.lt_or_ge j m.nmemnode with hlt | hge
        · exact hlt
        · have : j = m.nmemnode := by omega
          simp [this, Nat.mod_eq_of_lt hnode] at hback
      have := scanNodes_ne_none hnode k (j + 1) (by omega) (by omega)
      rwa [Nat.mod_add_mod, Nat.add_assoc]

lemma scanNodes_free {node : ℕ} :
    ∀ k j, scanNodes m node k j = some (some n) → m.freeList n ≠ []
  | 0, j, h => by
    rw [scanNodes] at h
    split_ifs at h
    simp at h
  | k + 1, j, h => by
    rw [scanNodes] at h
    split_ifs at h with hback hfree
    · simp at h
    · simp at h
      exact h ▸ hfree
    · exact scanNodes_free k _ h

lemma pickNode_ne_none {node : ℕ} (hnode : node < m.nmemnode) : pickNode m node ≠ none := by
  rw [pickNode]
  split_ifs
  · simp
  · exact scanNodes_ne_none hnode _ 1 (by omega) (by omega)

lemma pickNode_free {node : ℕ} (h : pickNode m node = some (some n)) : m.freeList n ≠ [] := by
  rw [pickNode] at h
  split_ifs at h with hfree
  · simp at h
    exact h ▸ hfree
  · exact scanNodes_free _ _ h

lemma Balanced.removeHead (h : Balanced U m L) (hd : m.freeList n = p :: rest) :
    let m' := (m.removeHead n).setInfo p { m.info p with piFreepage := false }
    Balanced U m' (L + one (.held p)) ∧ Kept L m m' := by
  intro m'
  have hmem : p ∈ m.freeList n := by simp [hd]
  have hn := h.home n p hmem
  have hcount : ∀ q, m.freeCount q = m'.freeCount q + if q = p then 1 else 0 :=
    freeCount_removeHead hn hd
  have hinfo : m'.info = Function.update m.info p { m.info p with piFreepage := false } := rfl
  have hp := hcount p
  have hle := h.once_le p
  constructor
  · refine ⟨h.wired, h.range, fun k q hq => ?_, fun q => ?_⟩
    · by_cases hk : k = n
      · subst hk
        have hq' : q ∈ rest := by simpa [m', Memory.removeHead, hd] using hq
        exact h.home k q (by simp [hd, hq'])
      · exact h.home k q (by simpa [m', Memory.removeHead, hk] using hq)
    · have hacc := h.page q
      by_cases hq : q = p
      · subst hq
        simp only [if_true] at hp
        refine ⟨?_, ?_, ?_, ?_, ?_⟩
        · rw [← hacc.once]
          simp [Memory.refs, hinfo, one_apply, hp]
          omega
        · simpa [Memory.refs, hinfo, one_apply] using hacc.ref
        · simp [hinfo]
          omega
        · simp [hinfo, hacc.clear (h.freeCount_pos hmem)]
        · simpa [hinfo] using hacc.hwpage
      · refine hacc.congr (by simpa [hq] using (hcount q).symm) ?_ ?_ ?_ ?_ <;>
          simp [hinfo, hq, one_apply]
  · refine ⟨fun q hq => ?_, fun q hq => ?_, fun q => ?_, Nat.le_refl _, rfl⟩
    · have hqn : q ∉ m.freeList n := h.not_mem_freeList (Or.inl hq) n
      have : q ∉ (m.freeList n).tail.take 1 := fun hmem =>
        hqn (List.mem_of_mem_tail (List.mem_of_mem_take hmem))
      simp [m', Memory.removeHead, Memory.relinked, this]
    · by_cases hqp : q = p
      · subst hqp; simp [hinfo]
      · simp [hinfo, hqp]
    · by_cases hqp : q = p
      · subst hqp; simp [hinfo]
      · simp [hinfo, hqp]

/-- The way out of a function that gives up because an allocation failed: nothing that was in
use has changed, and the failure has been counted. -/
@[reducible] def outOfMemory (U : Finset Ppn) (L : Ledger) (m : Memory) : Exits Errno Memory where
  err e m' := e = .noMem ∧ Balanced U m' L ∧ Kept L m m' ∧ m.failures < m'.failures
  stop _ _ := False

lemma pageAlloc_spec (h : Balanced U m L) (pid : ℕ) :
    wp (pageAlloc pid) (fun p m' => Balanced U m' (L + one (.held p)) ∧ Kept L m m' ∧
        (m'.info p).piClear = false ∧ m'.failures = m.failures)
      (outOfMemory U L m) m := by
  have hfail : ∀ Q, wp pageAllocFail Q (outOfMemory U L m)
      { m with calls := m.calls + 1, asked := pid :: m.asked } := by
    intro Q
    simp only [pageAllocFail, wp_bind, wp_change, wp_raise, outOfMemory, true_and]
    exact ⟨h.congr rfl rfl rfl rfl,
      ⟨fun _ _ => rfl, fun _ _ => rfl, fun _ => rfl, Nat.le_succ _, rfl⟩, Nat.lt_succ_self _⟩
  simp only [pageAlloc, wp_bind, wp_state, wp_change]
  by_cases hdeny : m.deny m.calls = true
  · rw [if_pos hdeny]
    exact hfail _
  rw [if_neg hdeny]
  have hnone := pickNode_ne_none (h.wired (if pid = 0xFFFFFFFF then m.cpu else pid))
  rw [archNodeByCpu]
  rcases hpick : pickNode m _ with _ | _ | n
  · exact (hnone hpick).elim
  · exact hfail _
  · obtain ⟨p, rest, hd⟩ := List.exists_cons_of_ne_nil (pickNode_free hpick)
    have hmem : p ∈ m.freeList n := by simp [hd]
    have hflag : (m.info p).piFreepage = true := (h.page p).free.mpr (h.freeCount_pos hmem)
    obtain ⟨hbal, hkept⟩ := h.removeHead hd
    simp only [wp_bind, wp_need, hd, List.head?_cons, Option.some.injEq, wp_change, wp_require,
      wp_pure]
    refine ⟨fun q hq => ?_, by simp⟩
    subst hq
    refine ⟨fun _ => ⟨?_, ⟨hkept.bytes, hkept.clear, hkept.hw, Nat.le_refl _, rfl⟩, ?_, rfl⟩,
      fun hno => (hno hflag).elim⟩
    · exact hbal.congr rfl rfl rfl rfl
    · simpa using (h.page p).clear (h.freeCount_pos hmem)

/-! ### Reference counts -/

lemma word32_pos : 0 < word32 := by decide

lemma atomicInc_mod (k : ℕ) : atomicInc (k % word32) = (k + 1) % word32 := by
  rw [atomicInc, Nat.mod_add_mod]

lemma atomicDec_mod (k : ℕ) : atomicDec ((k + 1) % word32) = k % word32 := by
  have : k + 1 + (word32 - 1) = k + word32 := by
    have := word32_pos
    omega
  rw [atomicDec, Nat.mod_add_mod, this, Nat.add_mod_right]

lemma Balanced.incref (h : Balanced U m L)
    (hL : ∀ q, q ≠ p → L' (.ent q) = L (.ent q) ∧ L' (.node q) = L (.node q) ∧
      L' (.held q) = L (.held q))
    (he : L' (.ent p) = L (.ent p) + 1)
    (hone : m.freeCount p + L' (.node p) + L' (.held p) = 0) (hU : p ∈ U) :
    Balanced U (m.setInfo p { m.info p with piRef := atomicInc (m.info p).piRef }) L' := by
  refine h.update (p := p) rfl rfl rfl (fun q hq => by simp [hq]) hL fun _ => ?_
  have hacc := h.page p
  refine ⟨?_, ?_, ?_, ?_, ?_⟩
  · simp only [freeCount_setInfo, hone, refs, he, hU, if_true]
    omega
  · simp only [setInfo_info, Function.update_self, hacc.ref, atomicInc_mod, refs, he]
    congr 1
    omega
  · simpa using hacc.free
  · simpa using hacc.clear
  · simpa using hacc.hwpage

lemma Balanced.incref_held (h : Balanced U m (L + one (.held p))) :
    Balanced U (m.setInfo p { m.info p with piRef := atomicInc (m.info p).piRef })
      (L + one (.ent p)) := by
  obtain ⟨hent, hnode, hheld, hhw, hfree⟩ := h.held_alone
  refine h.incref (fun q hq => ?_) ?_ ?_ (h.mem_of_used (by simp [one_apply]))
  · simp [one_apply, hq]
  · simp [one_apply, hent]
  · simp [one_apply, hnode, hheld, hfree]

lemma Balanced.incref_ent (h : Balanced U m L) (hp : 0 < m.refs L p) :
    Balanced U (m.setInfo p { m.info p with piRef := atomicInc (m.info p).piRef })
      (L + one (.ent p)) := by
  have hle := h.once_le p
  refine h.incref (fun q hq => ?_) ?_ ?_ (h.mem_of_refs hp)
  · simp [one_apply, hq]
  · simp [one_apply]
  · simp [one_apply]
    omega

lemma Kept.setInfo {i : PageInfo} (hc : i.piClear = (m.info p).piClear)
    (hh : i.piHwRef = (m.info p).piHwRef) : Kept L m (m.setInfo p i) := by
  refine ⟨fun _ _ => rfl, fun q _ => ?_, fun q => ?_, Nat.le_refl _, rfl⟩ <;>
    by_cases hq : q = p <;> simp [hq, hc, hh]

lemma Kept.setBytes {b : Page} (hp : L (.ent p) = 0) : Kept L m (m.setBytes p b) := by
  refine ⟨fun q hq => ?_, fun _ _ => rfl, fun _ => rfl, Nat.le_refl _, rfl⟩
  have : q ≠ p := by rintro rfl; omega
  simp [this]

lemma pagetreeDecref_spec (h : Balanced U m (L + one (.ent p)))
    (hfit : m.refs (L + one (.ent p)) p < word32) :
    wp (pagetreeDecref p)
      (fun _ m' => Balanced U m' L ∧ Kept L m m' ∧ m'.failures = m.failures) .never m := by
  obtain ⟨i, hi⟩ : ∃ i : PageInfo, { m.info p with piRef := atomicDec (m.info p).piRef } = i :=
    ⟨_, rfl⟩
  have hacc := h.page p
  have hle := h.once_le p
  have hU : p ∈ U := h.mem_of_used (by simp [one_apply])
  simp only [refs, Pi.add_apply, one_apply, if_true, reduceCtorEq, if_false] at hfit hle
  have href : i.piRef = L (.ent p) + (m.info p).piHwRef := by
    have := hacc.ref
    simp only [refs, Pi.add_apply, one_apply, if_true] at this
    simp only [← hi, this, Nat.add_right_comm _ 1, atomicDec_mod]
    exact Nat.mod_eq_of_lt (by omega)
  have hhw : i.piHwRef = (m.info p).piHwRef := by rw [← hi]
  have hfree : i.piFreepage = (m.info p).piFreepage := by rw [← hi]
  have hclear : i.piClear = (m.info p).piClear := by rw [← hi]
  have hhwp : i.piHwpage = (m.info p).piHwpage := by rw [← hi]
  have hkept : Kept L m (m.setInfo p i) := Kept.setInfo hclear hhw
  have hinfo : (m.setInfo p i).info p = i := by simp
  simp only [pagetreeDecref, wp_rules, hi, hinfo]
  refine ⟨fun hzero => ?_, fun hzero => ?_⟩
  · -- the last reference: the page is in our hand for a moment
    have hheld : Balanced U (m.setInfo p i) (L + one (.held p)) := by
      refine h.update (p := p) rfl rfl rfl (fun q hq => by simp [hq])
        (fun q hq => by simp [one_apply, hq]) fun _ => ?_
      refine ⟨?_, ?_, ?_, ?_, ?_⟩
      · simp [refs, one_apply, hU, hhw]
        omega
      · simp [refs, one_apply, hhw, hzero, ← href]
      · simpa [hfree] using hacc.free
      · simpa [hclear] using hacc.clear
      · simpa [hhwp] using hacc.hwpage
    refine ⟨fun _ => ?_, fun hno => hno (by omega)⟩
    exact wp_post (pageFree_spec hheld) fun _ m' hm' =>
      ⟨hm'.1, hkept.trans hm'.2.1, hm'.2.2⟩
  · refine ⟨h.update (p := p) rfl rfl rfl (fun q hq => by simp [hq])
      (fun q hq => by simp [one_apply, hq]) fun _ => ?_, hkept, rfl⟩
    refine ⟨?_, ?_, ?_, ?_, ?_⟩
    · simp [refs, hU, hhw]
      omega
    · simp only [setInfo_info, Function.update_self, refs, hhw, href]
      exact (Nat.mod_eq_of_lt (by omega)).symm
    · simpa [hfree] using hacc.free
    · simpa [hclear] using hacc.clear
    · simpa [hhwp] using hacc.hwpage

lemma Balanced.pin {k : ℕ} (h : Balanced U m L)
    (hL : ∀ q, q ≠ p → L' (.ent q) = L (.ent q))
    (hnode : ∀ q, L' (.node q) = L (.node q)) (hheld : ∀ q, L' (.held q) = L (.held q))
    (hk : L' (.ent p) + k = m.refs L p) :
    Balanced U (m.setInfo p { m.info p with piHwRef := k }) L' := by
  refine h.update (p := p) rfl rfl rfl (fun q hq => by simp [hq])
    (fun q hq => ⟨hL q hq, hnode q, hheld q⟩) fun _ => ?_
  have hacc := h.page p
  have hrefs : (m.setInfo p { m.info p with piHwRef := k }).refs L' p = m.refs L p := by
    simpa [refs] using hk
  refine ⟨?_, ?_, ?_, ?_, ?_⟩
  · rw [hrefs, hnode, hheld]
    exact hacc.once
  · rw [hrefs]
    simpa using hacc.ref
  · simpa using hacc.free
  · simpa using hacc.clear
  · simpa using hacc.hwpage

lemma pagetreeIncrefHw_spec (h : Balanced U m L) (hfit : m.refs L p + 1 < word32) :
    wp (pagetreeIncrefHw p)
      (fun _ m' => Balanced U m' L ∧ ∀ q, m'.refs L q ≤ max (m.refs L q) (m.refs L p + 1))
      Exits.mayStop m := by
  simp only [pagetreeIncrefHw, pagetreeIncref, wp_rules, Exits.mayStop, implies_true, and_true]
  intro hpos _
  have href : (m.info p).piRef = m.refs L p := by
    rw [(h.page p).ref, Nat.mod_eq_of_lt (by omega)]
  have hinc := h.incref_ent (p := p) (by omega)
  refine ⟨hinc.pin (fun q hq => ?_) (fun q => ?_) (fun q => ?_) ?_, fun q => ?_⟩
  · simp [one_apply, hq]
  · simp [one_apply]
  · simp [one_apply]
  · simp only [refs, setInfo_info, Function.update_self, Pi.add_apply, one_apply, if_true,
      atomicInc] at hfit ⊢
    rw [Nat.mod_eq_of_lt (by omega)]
    omega
  · by_cases hq : q = p
    · subst hq
      simp only [refs, setInfo_info, Function.update_self, atomicInc] at hfit ⊢
      rw [Nat.mod_eq_of_lt (by omega)]
      omega
    · simp [refs, hq]

lemma pagetreeDecrefHw_spec (h : Balanced U m L) (hfit : m.refs L p < word32) :
    wp (pagetreeDecrefHw p)
      (fun _ m' => Balanced U m' L ∧ ∀ q, m'.refs L q ≤ m.refs L q) Exits.mayStop m := by
  simp only [pagetreeDecrefHw, wp_rules, Exits.mayStop, implies_true, and_true]
  intro hpos _
  have hdec : atomicDec (m.info p).piHwRef + 1 = (m.info p).piHwRef := by
    obtain ⟨k, hk⟩ := Nat.exists_eq_succ_of_ne_zero hpos
    simp only [refs, hk] at hfit
    rw [hk, Nat.succ_eq_add_one, ← Nat.mod_eq_of_lt (show k + 1 < word32 by omega),
      atomicDec_mod, Nat.mod_eq_of_lt (show k < word32 by omega),
      Nat.mod_eq_of_lt (show k + 1 < word32 by omega)]
  have hswap : Balanced U (m.setInfo p { m.info p with piHwRef := atomicDec (m.info p).piHwRef })
      (L + one (.ent p)) := by
    refine h.pin (fun q hq => ?_) (fun q => ?_) (fun q => ?_) ?_
    · simp [one_apply, hq]
    · simp [one_apply]
    · simp [one_apply]
    · simp only [refs, Pi.add_apply, one_apply, if_true]
      omega
  refine wp_of_never (pagetreeDecref_spec hswap ?_) fun _ m' hm' => ⟨hm'.1, fun q => ?_⟩
  · simp only [refs, setInfo_info, Function.update_self, Pi.add_apply, one_apply, if_true] at hfit ⊢
    omega
  · rw [refs, hm'.2.1.hw]
    by_cases hq : q = p
    · subst hq
      simp only [setInfo_info, Function.update_self, refs]
      omega
    · simp [refs, hq]

end

end Corey.Mem
