import Corey.Mem.Ledger
import Corey.Lib.System

/-!
The page allocator by itself.

A run is any sequence of `page_alloc` and `page_free`, from any CPU. The state remembers which
pages are out, that is, allocated and not yet freed. At the start every managed page is out and
the free lists are empty; boot gives the pages back one by one.
-/

namespace Corey.Mem

open Corey.Comp

/-- The processor ids `page_alloc` may be called with: the CPUs, and the one that stands for
the CPU that makes the call. -/
def ValidPid (ncpu pid : ℕ) : Prop := pid = 0xFFFFFFFF ∨ pid < ncpu
  deriving Decidable

structure Heap where
  mem : Memory
  /-- the pages that are allocated -/
  out : List Ppn

inductive HeapOp
  | alloc (cpu pid : ℕ)
  | free (p : Ppn)

namespace Heap

/-- The memory as CPU `cpu` finds it. -/
def on (h : Heap) (cpu : ℕ) : Memory := { h.mem with cpu := cpu }

def localNode (h : Heap) (cpu pid : ℕ) : ℕ :=
  archNodeByCpu h.mem (if pid = 0xFFFFFFFF then cpu else pid)

def alloc (h : Heap) (cpu pid : ℕ) : Option Heap :=
  match pageAlloc pid (h.on cpu) with
  | (.ok p, m) => some ⟨m, p :: h.out⟩
  | (.err _, m) => some ⟨m, h.out⟩
  | (.stop _, _) => none

def free (h : Heap) (p : Ppn) : Option Heap :=
  ((pageFree p).next h.mem).map fun m => ⟨m, h.out.erase p⟩

/-- Every managed page is out, and nothing is on a free list yet. -/
structure Initial (ncpu : ℕ) (h : Heap) : Prop where
  wired : ∀ pid < ncpu, h.mem.nodeid pid < h.mem.nmemnode
  granted : ∀ k, h.mem.deny k = false
  empty : ∀ n, h.mem.freeList n = []
  flags : ∀ p, (h.mem.info p).piFreepage = false
  ram : ∀ p ∈ h.out, (∃ n, archNodeByAddr h.mem p = some n) ∧ (h.mem.info p).piHwpage = false
  nodup : h.out.Nodup

end Heap

def allocator (ncpu : ℕ) : System Heap HeapOp where
  init := Heap.Initial ncpu
  step
    | .alloc cpu pid, h => if cpu < ncpu ∧ ValidPid ncpu pid then h.alloc cpu pid else none
    | .free p, h => if p ∈ h.out then h.free p else none

/-! ### The search over the nodes -/

section

variable {m : Memory} {node n : ℕ} {p : Ppn}

lemma archNodeByAddr_lt (h : archNodeByAddr m p = some n) : n < m.nmemnode :=
  (List.findIdx?_eq_some_iff_findIdx_eq.mp h).1

lemma scanNodes_empty (hnode : node < m.nmemnode) :
    ∀ k j, 0 < j → scanNodes m node k ((node + j) % m.nmemnode) = some none →
      ∀ i, j ≤ i → i < m.nmemnode → m.freeList ((node + i) % m.nmemnode) = [] := by
  intro k
  -- the search stands at `node` again only after a whole turn
  have hback : ∀ j i, 0 < j → j ≤ i → i < m.nmemnode → (node + j) % m.nmemnode ≠ node := by
    intro j i hj hji hi hback
    rcases Nat.lt_or_ge (node + j) m.nmemnode with hlt | hge
    · rw [Nat.mod_eq_of_lt hlt] at hback
      omega
    · rw [Nat.mod_eq_sub_mod hge, Nat.mod_eq_of_lt (by omega)] at hback
      omega
  induction k with
  | zero =>
    intro j hj h i hji hi
    rw [scanNodes, if_neg (hback j i hj hji hi)] at h
    cases h
  | succ k ih =>
    intro j hj h i hji hi
    rw [scanNodes, if_neg (hback j i hj hji hi)] at h
    by_cases hfree : m.freeList ((node + j) % m.nmemnode) = []
    swap
    · rw [if_pos hfree] at h
      cases h
    rw [if_neg (not_not.mpr hfree), Nat.mod_add_mod, Nat.add_assoc] at h
    rcases Nat.eq_or_lt_of_le hji with rfl | hlt
    · exact hfree
    · exact ih (j + 1) (by omega) h i hlt hi

lemma pickNode_empty (hnode : node < m.nmemnode) (h : pickNode m node = some none)
    (hn : n < m.nmemnode) : m.freeList n = [] := by
  rw [pickNode] at h
  by_cases hfree : m.freeList node = []
  swap
  · rw [if_pos hfree] at h
    cases h
  rw [if_neg (not_not.mpr hfree)] at h
  by_cases heq : n = node
  · rw [heq, hfree]
  · have hother := scanNodes_empty hnode _ 1 Nat.one_pos h
    rcases Nat.lt_or_ge node n with hlt | hge
    · have := hother (n - node) (by omega) (by omega)
      rwa [Nat.add_sub_cancel' hlt.le, Nat.mod_eq_of_lt hn] at this
    · have := hother (m.nmemnode - node + n) (by omega) (by omega)
      rwa [← Nat.add_assoc, Nat.add_sub_cancel' hnode.le, Nat.add_mod_left,
        Nat.mod_eq_of_lt hn] at this

end

/-! ### The invariant -/

namespace Heap

/-- Whether page `p` is on the list of node `n`. -/
def Listed (m : Memory) (n : ℕ) (p : Ppn) : Prop :=
  (m.info p).piFreepage = true ∧ archNodeByAddr m p = some n
  deriving Decidable

structure Sorted (ncpu : ℕ) (h : Heap) : Prop where
  wired : ∀ pid < ncpu, h.mem.nodeid pid < h.mem.nmemnode
  granted : ∀ k, h.mem.deny k = false
  listed : ∀ n p, (h.mem.freeList n).count p = if Listed h.mem n p then 1 else 0
  home : ∀ p, (h.mem.info p).piFreepage = true ∨ p ∈ h.out → ∃ n, archNodeByAddr h.mem p = some n
  ram : ∀ p, (h.mem.info p).piFreepage = true ∨ p ∈ h.out → (h.mem.info p).piHwpage = false
  out : ∀ p ∈ h.out, (h.mem.info p).piFreepage = false
  nodup : h.out.Nodup

variable {ncpu cpu pid n : ℕ} {h h' : Heap} {p : Ppn} {rest : List Ppn}

lemma Initial.sorted (hi : h.Initial ncpu) : h.Sorted ncpu where
  wired := hi.wired
  granted := hi.granted
  listed n p := by simp [hi.empty, Listed, hi.flags]
  home p hp := (hi.ram p (by simpa [hi.flags] using hp)).1
  ram p hp := (hi.ram p (by simpa [hi.flags] using hp)).2
  out p _ := hi.flags p
  nodup := hi.nodup

namespace Sorted

lemma mem_iff (hs : h.Sorted ncpu) : p ∈ h.mem.freeList n ↔ Listed h.mem n p := by
  rw [← List.count_pos_iff, hs.listed]
  split_ifs with hl <;> simp [hl]

lemma freeList_eq_nil (hs : h.Sorted ncpu) (hn : h.mem.nmemnode ≤ n) :
    h.mem.freeList n = [] := by
  rw [List.eq_nil_iff_forall_not_mem]
  intro p hp
  exact absurd (archNodeByAddr_lt (hs.mem_iff.mp hp).2) (by omega)

lemma localNode_lt (hs : h.Sorted ncpu) (hcpu : cpu < ncpu) (hpid : ValidPid ncpu pid) :
    h.localNode cpu pid < h.mem.nmemnode := by
  apply hs.wired
  split_ifs with hself
  · exact hcpu
  · exact hpid.resolve_left hself

variable {m : Memory}

lemma congr (hs : h.Sorted ncpu) (hlist : m.freeList = h.mem.freeList)
    (hinfo : m.info = h.mem.info) (hnode : m.memnode = h.mem.memnode)
    (hid : m.nodeid = h.mem.nodeid) (hdeny : m.deny = h.mem.deny) : Sorted ncpu ⟨m, h.out⟩ := by
  have haddr : ∀ q, archNodeByAddr m q = archNodeByAddr h.mem q := by
    simp [archNodeByAddr, hnode]
  refine ⟨by simpa [hid, Memory.nmemnode, hnode] using hs.wired, by simpa [hdeny] using hs.granted,
    fun n p => ?_, by simpa [hinfo, haddr] using hs.home, by simpa [hinfo] using hs.ram,
    by simpa [hinfo] using hs.out, hs.nodup⟩
  have hsame : Listed m n p ↔ Listed h.mem n p := by simp [Listed, hinfo, haddr]
  rw [if_congr hsame rfl rfl, ← hs.listed]
  simp [hlist]

/-- Another page `p` may be free, on its list, and another one may be out. -/
lemma moved {out : List Ppn} {l : List Ppn} (hs : h.Sorted ncpu)
    (hp : (h.mem.info p).piFreepage = true ∨ p ∈ h.out) (hn : archNodeByAddr h.mem p = some n)
    (hlist : m.freeList = Function.update h.mem.freeList n l)
    (hinfo : ∀ q ≠ p, m.info q = h.mem.info q)
    (hram : (m.info p).piHwpage = (h.mem.info p).piHwpage)
    (hnode : m.memnode = h.mem.memnode) (hid : m.nodeid = h.mem.nodeid)
    (hdeny : m.deny = h.mem.deny) (hcount : ∀ q ≠ p, l.count q = (h.mem.freeList n).count q)
    (hself : l.count p = if (m.info p).piFreepage = true then 1 else 0)
    (hout : ∀ q ∈ out, q ≠ p → q ∈ h.out) (hpout : p ∈ out → (m.info p).piFreepage = false)
    (hnodup : out.Nodup) : Sorted ncpu ⟨m, out⟩ := by
  have haddr : ∀ q, archNodeByAddr m q = archNodeByAddr h.mem q := by
    simp [archNodeByAddr, hnode]
  have hsub : ∀ q, (m.info q).piFreepage = true ∨ q ∈ out →
      (h.mem.info q).piFreepage = true ∨ q ∈ h.out := by
    intro q hq
    by_cases hqp : q = p
    · exact hqp ▸ hp
    · exact hq.imp (fun hf => by rwa [← hinfo q hqp]) fun hq => hout q hq hqp
  refine ⟨by simpa [hid, Memory.nmemnode, hnode] using hs.wired, by simpa [hdeny] using hs.granted,
    fun k q => ?_, fun q hq => (haddr q).symm ▸ hs.home q (hsub q hq), fun q hq => ?_,
    fun q hq => ?_, hnodup⟩
  · have hold := hs.listed k q
    by_cases hqp : q = p
    · subst hqp
      simp only [Listed, haddr, hn, hlist]
      by_cases hk : k = n
      · subst hk
        simpa using hself
      · -- the page is on no list but that of its node
        have hkn : n ≠ k := Ne.symm hk
        simpa [Listed, hn, hk, hkn] using hold
    · have hsame : Listed m k q ↔ Listed h.mem k q := by simp [Listed, hinfo q hqp, haddr]
      rw [if_congr hsame rfl rfl, ← hold, hlist]
      by_cases hk : k = n
      · subst hk
        rw [Function.update_self, hcount q hqp]
      · rw [Function.update_of_ne hk]
  · have hold := hs.ram q (hsub q hq)
    by_cases hqp : q = p
    · subst hqp
      exact hram.trans hold
    · rwa [hinfo q hqp]
  · by_cases hqp : q = p
    · subst hqp
      exact hpout hq
    · rw [hinfo q hqp]
      exact hs.out q (hout q hq hqp)

lemma taken (hs : h.Sorted ncpu) (hd : h.mem.freeList n = p :: rest)
    (hlist : m.freeList = Function.update h.mem.freeList n rest)
    (hinfo : m.info = Function.update h.mem.info p { h.mem.info p with piFreepage := false })
    (hnode : m.memnode = h.mem.memnode) (hid : m.nodeid = h.mem.nodeid)
    (hdeny : m.deny = h.mem.deny) : Sorted ncpu ⟨m, p :: h.out⟩ := by
  have hp : Listed h.mem n p := hs.mem_iff.mp (by simp [hd])
  have hnew : p ∉ h.out := fun hp' => by simpa [hp.1] using hs.out p hp'
  -- the page was on this list once
  have honce := hs.listed n p
  rw [hd, if_pos hp] at honce
  refine hs.moved (.inl hp.1) hp.2 hlist (fun q hq => by simp [hinfo, hq]) (by simp [hinfo]) hnode
    hid hdeny (fun q hq => by simp [hd, Ne.symm hq]) (by simpa [hinfo] using honce)
    (fun q hq hqp => by simpa [hqp] using hq) (fun _ => by simp [hinfo])
    (List.nodup_cons.mpr ⟨hnew, hs.nodup⟩)

lemma given (hs : h.Sorted ncpu) (hout : p ∈ h.out) (hn : archNodeByAddr h.mem p = some n)
    (hlist : m.freeList = Function.update h.mem.freeList n (p :: h.mem.freeList n))
    (hinfo : m.info = Function.update h.mem.info p
      { h.mem.info p with piFreepage := true, piClear := false })
    (hnode : m.memnode = h.mem.memnode) (hid : m.nodeid = h.mem.nodeid)
    (hdeny : m.deny = h.mem.deny) : Sorted ncpu ⟨m, h.out.erase p⟩ := by
  have hbusy : ¬ Listed h.mem n p := by simp [Listed, hs.out p hout]
  have hnone := hs.listed n p
  rw [if_neg hbusy] at hnone
  exact hs.moved (.inr hout) hn hlist (fun q hq => by simp [hinfo, hq]) (by simp [hinfo]) hnode
    hid hdeny (fun q hq => by simp [Ne.symm hq]) (by simpa [hinfo] using hnone)
    (fun q hq _ => List.mem_of_mem_erase hq) (fun hq => absurd hq hs.nodup.not_mem_erase)
    (hs.nodup.erase p)

end Sorted

/-- What `page_alloc` does: it takes the first page of the list it picked, or finds every list
empty. -/
inductive Took (h : Heap) (cpu pid : ℕ) : Outcome Errno Ppn → Memory → Prop
  | page {n : ℕ} {p : Ppn} {rest : List Ppn} {m : Memory} (hd : h.mem.freeList n = p :: rest)
    (hn : h.mem.freeList (h.localNode cpu pid) ≠ [] → n = h.localNode cpu pid)
    (hlist : m.freeList = Function.update h.mem.freeList n rest)
    (hinfo : m.info = Function.update h.mem.info p { h.mem.info p with piFreepage := false })
    (hnode : m.memnode = h.mem.memnode) (hid : m.nodeid = h.mem.nodeid)
    (hdeny : m.deny = h.mem.deny) : Took h cpu pid (.ok p) m
  | nothing {m : Memory} (hall : ∀ n, h.mem.freeList n = [])
    (hlist : m.freeList = h.mem.freeList) (hinfo : m.info = h.mem.info)
    (hnode : m.memnode = h.mem.memnode) (hid : m.nodeid = h.mem.nodeid)
    (hdeny : m.deny = h.mem.deny) : Took h cpu pid (.err .noMem) m

/-- The ways out of `page_alloc`. -/
@[reducible] def Took.exits (h : Heap) (cpu pid : ℕ) : Exits Errno Memory where
  err e m := Took h cpu pid (.err e) m
  stop _ _ := False

lemma Sorted.pageAlloc_took (hs : h.Sorted ncpu) (hcpu : cpu < ncpu) (hpid : ValidPid ncpu pid) :
    wp (pageAlloc pid) (fun p m => Took h cpu pid (.ok p) m) (Took.exits h cpu pid) (h.on cpu) := by
  have hnode := hs.localNode_lt hcpu hpid
  simp only [pageAlloc, wp_bind, wp_state, wp_change]
  rw [if_neg (by simp [on, hs.granted])]
  have hhere : archNodeByCpu (h.on cpu) (if pid = 0xFFFFFFFF then (h.on cpu).cpu else pid) =
      h.localNode cpu pid := rfl
  rw [hhere]
  rcases hpick : pickNode (h.on cpu) (h.localNode cpu pid) with _ | _ | n
  · exact (pickNode_ne_none (m := h.on cpu) hnode hpick).elim
  · -- the search came back: all lists are empty
    simp only [pageAllocFail, wp_bind, wp_change, wp_raise, Took.exits]
    refine Took.nothing (fun n => ?_) rfl rfl rfl rfl rfl
    rcases Nat.lt_or_ge n h.mem.nmemnode with hn | hn
    · exact pickNode_empty (m := h.on cpu) hnode hpick hn
    · exact hs.freeList_eq_nil hn
  · obtain ⟨p, rest, hd⟩ := List.exists_cons_of_ne_nil (pickNode_free hpick)
    have hd' : h.mem.freeList n = p :: rest := hd
    have hflag : (h.mem.info p).piFreepage = true := (hs.mem_iff.mp (hd' ▸ List.mem_cons_self)).1
    simp only [wp_bind, wp_need, hd, List.head?_cons, Option.some.injEq, wp_change, wp_require,
      wp_pure]
    refine ⟨fun q hq => ?_, by simp⟩
    subst hq
    refine ⟨fun _ => ?_, fun hno => (hno hflag).elim⟩
    refine Took.page hd' (fun hlocal => ?_) ?_ rfl rfl rfl rfl
    · have hlocal : (h.on cpu).freeList (h.localNode cpu pid) ≠ [] := hlocal
      rw [pickNode, if_pos hlocal] at hpick
      exact (Option.some.inj (Option.some.inj hpick)).symm
    · simp only [setInfo_freeList, Memory.removeHead, on, hd', List.tail_cons]

lemma Sorted.pageFree_gave (hs : h.Sorted ncpu) (hout : p ∈ h.out) :
    wp (pageFree p) (fun _ m => Sorted ncpu ⟨m, h.out.erase p⟩) .never h.mem := by
  obtain ⟨n, hn⟩ := hs.home p (Or.inr hout)
  simp only [pageFree, wp_bind, wp_state]
  rw [if_neg (by simp [hs.ram p (Or.inr hout)])]
  simp only [wp_bind, wp_need, hn, wp_require, wp_change]
  refine ⟨fun k hk => ⟨fun _ => ?_, fun hno => (hno (hs.out p hout)).elim⟩, by simp⟩
  cases hk
  exact hs.given hout hn rfl rfl rfl rfl rfl

lemma Sorted.step (hs : h.Sorted ncpu) (op : HeapOp)
    (hop : (allocator ncpu).step op h = some h') : h'.Sorted ncpu := by
  cases op with
  | alloc cpu pid =>
    simp only [allocator] at hop
    split_ifs at hop with hvalid
    have htook := hs.pageAlloc_took hvalid.1 hvalid.2
    simp only [Heap.alloc, wp] at hop htook
    rcases hres : pageAlloc pid (h.on cpu) with ⟨r, m⟩
    rw [hres] at hop htook
    rcases r with p | e | w
    · cases hop
      cases htook with
      | page hd _ hlist hinfo hnode hid hdeny =>
        exact hs.taken hd hlist hinfo hnode hid hdeny
    · cases hop
      cases htook with
      | nothing _ hlist hinfo hnode hid hdeny =>
        exact hs.congr hlist hinfo hnode hid hdeny
    · cases hop
  | free p =>
    simp only [allocator] at hop
    split_ifs at hop with hout
    obtain ⟨m, hm, rfl⟩ := Option.map_eq_some_iff.mp hop
    exact next_of_wp (I := fun m => Sorted ncpu ⟨m, h.out.erase p⟩)
      (wp_of_never (hs.pageFree_gave hout) fun _ _ h => h) hm

end Heap

open Heap

/-- **The allocator.** In every state of every run a page is on a free list exactly while its
flag is set, once, on the list of its own node. An allocation takes a page of the local node if
there is one and a page of another node otherwise, never one that is out, and fails exactly
when all lists are empty. A page that is out can be freed. -/
theorem page_allocator_correct {ncpu : ℕ} {h : Heap} (hr : (allocator ncpu).Reachable h) :
    (∀ n p, (h.mem.freeList n).count p =
      if (h.mem.info p).piFreepage = true ∧ archNodeByAddr h.mem p = some n then 1 else 0) ∧
    (∀ p, (h.mem.info p).piFreepage = true → ∃ n, archNodeByAddr h.mem p = some n) ∧
    (∀ cpu pid, cpu < ncpu → ValidPid ncpu pid →
      match pageAlloc pid (h.on cpu) with
      | (.ok p, _) => p ∉ h.out ∧ ∃ n, archNodeByAddr h.mem p = some n ∧ p ∈ h.mem.freeList n ∧
          (h.mem.freeList (h.localNode cpu pid) ≠ [] ↔ n = h.localNode cpu pid)
      | (.err e, _) => e = .noMem ∧ ∀ n, h.mem.freeList n = []
      | (.stop _, _) => False) ∧
    ∀ p ∈ h.out, ∃ m, pageFree p h.mem = (.ok (), m) := by
  have hs : h.Sorted ncpu := System.Reach.invariant (I := fun h => h.Sorted ncpu)
    (fun _ hi => Initial.sorted hi) (fun _ op _ hs _ hop => hs.step op hop) hr
  refine ⟨fun n p => hs.listed n p, fun p hp => hs.home p (Or.inl hp),
    fun cpu pid hcpu hpid => ?_, fun p hp => ?_⟩
  · have htook := hs.pageAlloc_took hcpu hpid
    simp only [wp] at htook
    rcases hres : pageAlloc pid (h.on cpu) with ⟨p | e | w, m⟩ <;> rw [hres] at htook
    · cases htook with
      | @page n _ rest _ hd hlocal _ _ _ _ _ =>
        have hp : p ∈ h.mem.freeList n := by simp [hd]
        have hlisted := hs.mem_iff.mp hp
        refine ⟨fun hout => ?_, n, hlisted.2, hp, hlocal, fun heq => ?_⟩
        · have := hs.out p hout
          simp [hlisted.1] at this
        · rw [← heq, hd]
          exact List.cons_ne_nil _ _
    · cases htook with
      | nothing hall _ _ _ _ _ => exact ⟨rfl, hall⟩
    · exact htook
  · obtain ⟨_, m, hm, -⟩ := ok_of_never (hs.pageFree_gave hp)
    exact ⟨m, hm⟩

/-- Two nodes of two pages each, before boot frees them. -/
def twoNodes : Heap where
  mem :=
    { memnode := [⟨0, 2 * pgsize⟩, ⟨2 * pgsize, 2 * pgsize⟩]
      nodeid := fun pid => pid
      cpu := 0
      info := fun _ => {}
      bytes := fun _ => zeroPage
      freeList := fun _ => []
      failures := 0
      calls := 0
      deny := fun _ => false
      relink := id }
  out := [0, 1, 2, 3]

lemma twoNodes_initial : twoNodes.Initial 2 where
  wired := by decide
  granted _ := rfl
  empty _ := rfl
  flags _ := rfl
  ram p hp := by
    have hnode : ∀ p ∈ twoNodes.out, (archNodeByAddr twoNodes.mem p).isSome := by decide
    exact ⟨Option.isSome_iff_exists.mp (hnode p hp), rfl⟩
  nodup := by decide

/-- Boot frees the pages of the second node only; CPU 0 gets one of them, and then another. -/
theorem page_allocator_correct_two_nodes :
    ∃ h, (allocator 2).Reachable h ∧ h.out = [3, 0, 1] ∧ h.mem.freeList 0 = [] ∧
      ∃ m, pageAlloc 0 (h.on 0) = (.ok 2, m) ∧ 2 ∉ h.out := by
  have hstart : (allocator 2).Reachable twoNodes := .start twoNodes_initial
  obtain ⟨h, hs⟩ : ∃ h, (allocator 2).run (fun _ _ => true)
      [.free 2, .free 3, .alloc 0 0] twoNodes =
      some h := ⟨_, rfl⟩
  have hrun : (allocator 2).Reachable h := hstart.run (fun _ _ _ => trivial) hs
  cases hs
  refine ⟨_, hrun, by rfl, by rfl, _, by rfl, ?_⟩
  have := (page_allocator_correct hrun).2.2.1 0 0 (by decide) (by decide)
  exact this.1

end Corey.Mem
