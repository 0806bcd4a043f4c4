import Corey.Mem.Ledger

/-!
The memory after boot.
-/

namespace Corey.Mem

open Corey.Comp

/-- Every managed page has been freed once, onto the list of its own node, and nothing else
has happened to any page. -/
structure Memory.Boot (U : Finset Ppn) (m : Memory) : Prop where
  wired : ∀ pid, m.nodeid pid < m.nmemnode
  listed : ∀ p ∈ U, ∃ n, archNodeByAddr m p = some n ∧ (m.freeList n).count p = 1
  home : ∀ n p, p ∈ m.freeList n → p ∈ U ∧ archNodeByAddr m p = some n
  info : ∀ p ∈ U, m.info p = { piFreepage := true }
  other : ∀ p, p ∉ U → (m.info p).piRef = 0 ∧ (m.info p).piHwRef = 0 ∧
    (m.info p).piFreepage = false

namespace Memory.Boot

variable {U : Finset Ppn} {m : Memory}

lemma balanced (h : m.Boot U) : Balanced U m 0 := by
  have hfree : ∀ p, m.freeCount p = if p ∈ U then 1 else 0 := by
    intro p
    by_cases hp : p ∈ U
    · obtain ⟨n, hn, hc⟩ := h.listed p hp
      simp [Memory.freeCount, hn, hc, hp]
    · simp only [Memory.freeCount, hp, if_false]
      cases hn : archNodeByAddr m p with
      | none => rfl
      | some n => exact List.count_eq_zero.mpr fun hmem => hp (h.home n p hmem).1
  refine ⟨h.wired, fun p hp => ?_, fun n p hp => (h.home n p hp).2, fun p => ?_⟩
  · obtain ⟨n, hn, -⟩ := h.listed p hp
    exact ⟨n, hn⟩
  · by_cases hp : p ∈ U
    · constructor <;> simp [hfree, hp, h.info p hp, Memory.refs]
    · obtain ⟨hr, hw, hf⟩ := h.other p hp
      constructor <;> simp [hfree, hp, hr, hw, hf, Memory.refs]

lemma noPins (h : m.Boot U) (p : Ppn) : (m.info p).piHwRef = 0 := by
  by_cases hp : p ∈ U
  · rw [h.info p hp]
  · exact (h.other p hp).2.1

end Memory.Boot

/-- A machine with one memory node of `k` pages, all of them free. -/
def bootMemory (k : ℕ) : Memory where
  memnode := [⟨0, k * pgsize⟩]
  nodeid _ := 0
  cpu := 0
  info p := { piFreepage := decide (p < k) }
  bytes _ := zeroPage
  freeList n := if n = 0 then List.range k else []
  failures := 0
  calls := 0
  deny _ := false
  relink := id

lemma bootMemory_boot (k : ℕ) : (bootMemory k).Boot (Finset.range k) := by
  have hnode : ∀ p < k, archNodeByAddr (bootMemory k) p = some 0 := by
    intro p hp
    have : p * pgsize < k * pgsize := Nat.mul_lt_mul_of_pos_right hp (by decide)
    simp [archNodeByAddr, bootMemory, List.findIdx?_cons, this]
  refine ⟨fun _ => Nat.one_pos, fun p hp => ⟨0, hnode p (Finset.mem_range.mp hp), ?_⟩,
    fun n p hp => ?_, fun p hp => ?_, fun p hp => ?_⟩
  · exact List.count_eq_one_of_mem List.nodup_range (List.mem_range.mpr (Finset.mem_range.mp hp))
  · by_cases hn : n = 0
    · subst hn
      have hlt : p < k := by simpa [bootMemory] using hp
      exact ⟨Finset.mem_range.mpr hlt, hnode p hlt⟩
    · simp [bootMemory, hn] at hp
  · simp [bootMemory, Finset.mem_range.mp hp]
  · have : ¬ p < k := fun h => hp (Finset.mem_range.mpr h)
    simp [bootMemory, this]

end Corey.Mem
