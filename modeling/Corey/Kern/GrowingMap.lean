import Corey.Kern.HashMap
import Corey.Mem.Contents
import Mathlib.Data.Nat.Prime.Basic

/-!
The kernel's maps as finite maps (`kern/map.c`).

A map moves its table to one twice as large before an insertion that would fill it, so the
insertion finds room. The pages of the table are in one of the map's two page trees; the other
tree is empty. An allocation that fails is told by the allocator's own counter.
-/

namespace Corey.Kern

open Function Corey.Comp Corey.Mem Forest

variable {V : Type} {ι : Type} [DecidableEq ι] {U : Finset Ppn} {T : Finset ι} {back : Bool → ι}
  {f : Finmap fun _ : ℕ => V} {s s' : Map V × Forest ι} {t : Hashtable V} {k n i : ℕ} {v : V}

/-! ### Moving the entries -/

lemma rehashInto_spec : ∀ (l : List (ℕ × V)) (t : Hashtable V) (g : Finmap fun _ : ℕ => V),
    Holds t g → (∀ k v, f.lookup k = some v ↔ (k, v) ∈ l ∨ g.lookup k = some v) →
    (l.map Prod.fst).Nodup → (∀ k ∈ l.map Prod.fst, IsKey k ∧ k ∉ g) →
    t.size + l.length ≤ t.capacity →
    wp (rehashInto l) (fun _ t' => Holds t' f ∧ t'.capacity = t.capacity) .never t
  | [], t, g, h, hf, _, _, _ => by
    have hfg : f = g := Finmap.ext_lookup fun k => Option.ext fun v => by simp [hf]
    exact ⟨hfg ▸ h, rfl⟩
  | (k, v) :: l, t, g, h, hf, hnd, hkeys, hroom => by
    simp only [List.map_cons, List.nodup_cons] at hnd
    obtain ⟨hk, hkg⟩ := hkeys k (by simp)
    obtain ⟨t1, ht1, hcap, h1⟩ := hashPut_of_notMem h hk hkg
      (by simp only [List.length_cons] at hroom; omega) v
    have hsize : t1.size = t.size + 1 := by
      rw [h1.size, h.size, card_keys_insert hkg]
    have hput : wp (hashPut k v) (fun _ t' => t' = t1) .never t := by
      simp only [wp, ht1]
    simp only [rehashInto, wp_bind, wp_attempt]
    refine wp_of_never hput fun _ t' ht' => ?_
    subst ht'
    refine wp_post (rehashInto_spec l t' (g.insert k v) h1 (fun x w => ?_) hnd.2
      (fun x hx => ?_) ?_) fun _ t2 h2 => ⟨h2.1, h2.2.trans hcap⟩
    · by_cases hxk : x = k
      · subst hxk
        have hno : ∀ w, (x, w) ∉ l := fun w hw => hnd.1 (List.mem_map.mpr ⟨_, hw, rfl⟩)
        have hnone : g.lookup x = none := Finmap.lookup_eq_none.mpr hkg
        simp [hf, hno, hnone, eq_comm]
      · simp [hf, hxk, Finmap.lookup_insert_of_ne _ hxk]
    · have hxk : x ≠ k := fun heq => hnd.1 (heq ▸ hx)
      obtain ⟨hkey, hxg⟩ := hkeys x (by simp [hx])
      exact ⟨hkey, by simpa [hxk] using hxg⟩
    · simp only [List.length_cons] at hroom
      omega

lemma rehashInto_toList (h : Holds t f) (hn : 0 < n → n ∣ 2 ^ 64) (hle : t.size ≤ n) :
    wp (rehashInto t.toList) (fun _ t' => Holds t' f ∧ t'.capacity = n) .never (hashInit n) := by
  refine rehashInto_spec t.toList _ ∅ (Holds.init hn) (fun k v => ?_) h.nodup_toList
    (fun k hk => ?_) ?_
  · simp [h.mem_toList]
  · obtain ⟨⟨k', v⟩, hkv, rfl⟩ := List.mem_map.mp hk
    exact ⟨h.key _ (Finmap.mem_of_lookup_eq_some (h.mem_toList.mp hkv)), Finmap.notMem_empty⟩
  · have hlen := h.length_toList_le
    show 0 + t.toList.length ≤ n
    omega

/-! ### The two trees -/

/-- The table's pages are in the current tree, and the other tree is empty. -/
structure Backed (U : Finset Ppn) (T : Finset ι) (back : Bool → ι) (s : Map V × Forest ι) :
    Prop where
  sound : s.2.Sound U T
  cap : s.1.table.capacity = s.1.npages * nHashentryPerPage
  idle : (s.2.tree (back !s.1.cur)).Empty
  pages : ∀ i < s.1.npages, ∃ p q, locate i = some p ∧
    s.2.ent (back s.1.cur, p) = ⟨some q, pageExcl⟩

/-- An allocation has failed since `s`. -/
@[reducible] def grew (s : Map V × Forest ι) : Exits Errno (Map V × Forest ι) where
  err _ s' := s.2.mem.failures < s'.2.mem.failures
  stop _ s' := s.2.mem.failures < s'.2.mem.failures

lemma Backed.getHashEnt (h : Backed U T back s) (hi : i < s.1.table.capacity) :
    ∃ q, Kern.getHashEnt (back s.1.cur) i s.2 = (.ok (some q, i % nHashentryPerPage), s.2) := by
  rw [h.cap] at hi
  obtain ⟨p, q, hp, hq⟩ := h.pages (i / nHashentryPerPage) (Nat.div_lt_of_lt_mul (by
    rwa [Nat.mul_comm] at hi))
  refine ⟨q, eq_of_wp ?_⟩
  simp only [Kern.getHashEnt, getPage, onTree, wp_bind, wp_attempt, wp_zoom]
  refine wp_of_never (pagetreeGetPage_own hp hq pageExcl) fun r x hr => ?_
  obtain ⟨rfl, rfl⟩ := hr
  simp

lemma Sound.initTree {s : Forest ι} {t : ι} (h : s.Sound U T) (ht : t ∈ T)
    (hempty : (s.tree t).Empty) (demand : Bool) (pid : ℕ) :
    Forest.Sound U T { s with tree := update s.tree t (pagetreeInit demand pid) } := by
  have hl : ledger T { s with tree := update s.tree t (pagetreeInit demand pid) } = s.ledger T := by
    have hnew : (pagetreeInit demand pid).ledger = 0 :=
      Pagetree.Empty.ledger ⟨fun _ _ => rfl, fun _ _ => rfl⟩
    have := ledger_update (s := s) ht (pagetreeInit demand pid) s.mem
    rw [hnew, ← hempty.ledger, ← ledger_split ht] at this
    exact this
  exact ⟨hl ▸ h.balanced, hl ▸ h.fits⟩

/-- The pages of the next table that have been put into its tree. -/
structure Backing (U : Finset Ppn) (T : Finset ι) (next : ι) (s : Map V × Forest ι) (i : ℕ)
    (s' : Map V × Forest ι) : Prop where
  map : s'.1 = s.1
  sound : s'.2.Sound U T
  others : ∀ u ≠ next, s'.2.tree u = s.2.tree u
  pages : ∀ j < i, ∃ p q, locate j = some p ∧ s'.2.ent (next, p) = ⟨some q, pageExcl⟩
  failures : s'.2.mem.failures = s.2.mem.failures

lemma backTablePage_spec {next : ι} (hn : next ∈ T) (h : Backing U T next s i s')
    (hi : i < treePages) (pid : ℕ) :
    wp (backTablePage next pid i) (fun _ => Backing U T next s (i + 1))
      ⟨fun _ r => s.2.mem.failures < r.2.mem.failures ∧ r.2.Sound U T,
        fun _ r => s.2.mem.failures < r.2.mem.failures⟩ s' := by
  simp only [backTablePage, putTablePage, wp_bind, wp_shared, wp_attempt]
  refine wp_mono (takePage_spec h.sound pid) (fun x f1 h1 => ?_)
    fun _ f1 h1 => by rw [← h.failures]; exact h1.2.2
  obtain ⟨⟨hs1, htree1, hhand, -⟩, hfail1⟩ := h1
  simp only [wp_pure]
  refine wp_mono (putPage_own hn (by rw [hhand]; simp) hs1 i) (fun _ f2 h2 => ?_) fun e f2 h2 => ?_
  · obtain ⟨hs2, ⟨p, hp, hent, hsame⟩, htree2, hfail2⟩ := h2
    simp only [onMem, pageZero, wp_zoom, wp_change]
    refine ⟨h.map, ⟨hs2.balanced.setBytes x zeroPage, hs2.fits⟩, fun u hu => ?_, fun j hj => ?_,
      (hfail2.trans hfail1).trans h.failures⟩
    · exact (htree2 u hu).trans ((congrFun htree1 u).trans (h.others u hu))
    · rcases Nat.lt_succ_iff_lt_or_eq.mp hj with hlt | rfl
      · obtain ⟨p', q, hp', hq⟩ := h.pages j hlt
        refine ⟨p', q, hp', (hsame p' (locate_valid hp') ?_).trans ?_⟩
        · rintro rfl
          exact absurd (locate_inj hp' hp) (by omega)
        · rw [← hq, ent, htree1, ent]
      · exact ⟨p, x, hp, hent⟩
  · rcases h2.2 with ⟨-, hlt⟩ | ⟨-, hle⟩
    · refine ⟨?_, h2.1⟩
      rw [← h.failures, ← hfail1]
      exact hlt
    · omega

def nextPages (map : Map V) : ℕ := if map.npages = 0 then 1 else map.npages * 2

lemma pow_double (hlt : n < 2 ^ 63) (hdvd : n ∣ 2 ^ 64) : n * 2 ∣ 2 ^ 64 := by
  obtain ⟨e, -, rfl⟩ := (Nat.dvd_prime_pow Nat.prime_two).mp hdvd
  rw [← Nat.pow_succ]
  exact Nat.pow_dvd_pow 2 (by have := (Nat.pow_lt_pow_iff_right (by decide)).mp hlt; omega)

omit [DecidableEq ι] in
lemma nextPages_le (h : Backed U T back s) (hsmall : s.1.table.capacity < 2 ^ 26) :
    nextPages s.1 ≤ treePages := by
  have hcap : s.1.table.capacity = s.1.npages * 256 := h.cap
  have htree : 2 ^ 19 ≤ treePages := by decide
  rw [nextPages]
  split_ifs <;> omega

lemma le_nextPages (m : Map V) : m.npages ≤ nextPages m := by
  rw [nextPages]
  split_ifs <;> omega

lemma nextPages_spec {m : Map V} (hcap : m.table.capacity = m.npages * nHashentryPerPage)
    (hle : m.npages ≤ treePages) (hh : Holds m.table f) :
    nextPages m * nHashentryPerPage ∣ 2 ^ 64 ∧
      m.table.capacity < nextPages m * nHashentryPerPage ∧
      nHashentryPerPage ≤ nextPages m * nHashentryPerPage := by
  have htree : treePages < 2 ^ 40 := by decide
  rw [show nHashentryPerPage = 256 by decide] at hcap ⊢
  rw [nextPages]
  split_ifs with hz
  · exact ⟨by decide, by omega, by omega⟩
  · have hdvd := pow_double (by omega) (hh.pow (by omega))
    rw [hcap, Nat.mul_right_comm] at hdvd
    exact ⟨hdvd, by omega, by omega⟩

/-- **Rehashing keeps the map** and leaves a larger table; it fails only with an allocation. -/
lemma rehash_spec (hback : ∀ b, back b ∈ T) (hne : ∀ b, back b ≠ back !b)
    (h : Backed U T back s) (hh : Holds s.1.table f) (hfit : nextPages s.1 ≤ treePages) :
    wp (rehash back) (fun _ s' => Backed U T back s' ∧ Holds s'.1.table f ∧
        s.1.table.capacity < s'.1.table.capacity ∧
        nHashentryPerPage ≤ s'.1.table.capacity) (grew s) s := by
  obtain ⟨hpow, hlarger, hpage⟩ := nextPages_spec h.cap ((le_nextPages _).trans hfit) hh
  set next := back !s.1.cur with hnext
  have h0 : Backing U T next s 0
      (s.1, { s.2 with tree := update s.2.tree next (pagetreeInit false s.1.pid) }) :=
    ⟨rfl, Sound.initTree h.sound (hback _) h.idle false s.1.pid, fun u hu => by simp [hu],
      fun j hj => absurd hj (by omega), rfl⟩
  have hloop := wp_loop (fun i => Backing U T next s i) (nextPages s.1) 0 _ h0
    fun j r _ hj hr => backTablePage_spec (hback _) hr (by omega) s.1.pid
  simp only [rehash, initTree, wp_rules, wp_shared, wp_onErr]
  refine wp_mono hloop (fun _ r hr => ?_) fun _ r hr => ?_
  · rw [Nat.zero_add] at hr
    simp only [onTable, wp_zoom, wp_put]
    have hsize : s.1.table.size ≤ nextPages s.1 * nHashentryPerPage := hh.size_le.trans hlarger.le
    refine wp_of_never (rehashInto_toList hh (fun _ => hpow) hsize) fun _ t' ht' => ?_
    -- the old tree gives its pages back
    refine wp_imp (wp_and (free_sound (hback s.1.cur) hr.sound)
      (free_spec (L := ∅) hr.sound (by simp) (hback s.1.cur) (by simp)))
      (fun _ f3 h3 => ?_) (fun _ _ h3 => h3.2.elim) fun _ _ h3 => h3.2.elim
    obtain ⟨hs3, -, honly, hempty⟩ := h3
    obtain ⟨pt', m', rfl, -⟩ := honly.tree
    rw [ht'.2]
    refine ⟨⟨hs3, ht'.2, by simpa [hr.map] using hempty, fun i hi => ?_⟩, ht'.1, hlarger, hpage⟩
    obtain ⟨p, q, hp, hq⟩ := hr.pages i hi
    refine ⟨p, q, hp, ?_⟩
    rw [← hq, ent, withTree_tree_of_ne (hne s.1.cur).symm]
    rfl
  · refine wp_mono (free_spec (L := ∅) hr.2 (by simp) (hback !s.1.cur) (by simp))
      (fun _ f3 h3 => ?_) fun _ _ => False.elim
    show s.2.mem.failures < f3.mem.failures
    rw [h3.2.1.failures]
    exact hr.1

/-! ### Insertion -/

lemma percent_eq (hs : t.size < 2 ^ 24) (hc : 0 < t.capacity) :
    t.percent = 100 * t.size / t.capacity := by
  have hmod : 100 * t.size % 2 ^ 32 = 100 * t.size := Nat.mod_eq_of_lt (by omega)
  rw [Hashtable.percent, if_neg hc.ne', hmod, if_pos (by omega)]

lemma percent_spec (hs : t.size < 2 ^ 24) :
    (t.percent < rehashThresh → 70 * t.capacity > 100 * t.size) ∧
      (rehashThresh ≤ t.percent → t.capacity < 2 ^ 26) := by
  rcases Nat.eq_zero_or_pos t.capacity with hz | hpos
  · rw [Hashtable.percent, if_pos hz, hz]
    exact ⟨fun h => absurd h (by decide), fun _ => by decide⟩
  · rw [percent_eq hs hpos, rehashThresh]
    refine ⟨fun h => ?_, fun h => ?_⟩
    · exact (Nat.div_lt_iff_lt_mul hpos).mp h
    · have := (Nat.le_div_iff_mul_le hpos).mp h
      omega

/-- What holds between the operations: the table holds the map, and is never full. -/
structure Standing (U : Finset Ppn) (T : Finset ι) (back : Bool → ι) (s : Map V × Forest ι)
    (f : Finmap fun _ : ℕ => V) : Prop where
  backed : Backed U T back s
  holds : Holds s.1.table f
  room : 0 < s.1.table.capacity → s.1.table.size < s.1.table.capacity

section

omit [DecidableEq ι]

lemma onTable_mem {α : Type} (m : HtM V α) : wp (onTable m : MapM ι V α) (fun _ r => r.2 = s.2)
    ⟨fun _ r => r.2 = s.2, fun _ r => r.2 = s.2⟩ s := by
  rw [onTable, wp_zoom]
  simp only [wp]
  rcases m s.1.table with ⟨_ | _ | _, _⟩ <;> trivial

lemma onTable_eq {α : Type} {m : HtM V α} {o : Outcome Errno α} (h : m s.1.table = (o, t)) :
    (onTable m : MapM ι V α) s = (o, ({ s.1 with table := t }, s.2)) := by
  simp only [onTable, zoom, h]

lemma Backed.withTable (h : Backed U T back s) (hc : t.capacity = s.1.table.capacity) :
    Backed U T back ({ s.1 with table := t }, s.2) :=
  ⟨h.sound, hc.trans h.cap, h.idle, h.pages⟩

lemma onTable_put (h : Backed U T back s) (hh : Holds s.1.table f) (hk : IsKey k) (hf : k ∉ f)
    (hroom : s.1.table.size + 1 < s.1.table.capacity) (v : V) {X : Exits Errno _} :
    wp (onTable (hashPut k v) : MapM ι V Unit)
      (fun _ s' => Standing U T back s' (f.insert k v) ∧ 0 < s'.1.table.capacity) X s := by
  obtain ⟨t', ht', hcap, hh'⟩ := hashPut_of_notMem hh hk hf (by omega) v
  have hsize : t'.size = s.1.table.size + 1 := by
    rw [hh'.size, hh.size, card_keys_insert hf]
  simp only [wp, onTable_eq ht']
  exact ⟨⟨h.withTable hcap, hh', fun _ => by simp only [hcap, hsize]; exact hroom⟩,
    by simp only [hcap]; omega⟩

end

/-- **Insertion of a new key** succeeds, if no allocation fails. -/
lemma mapPut_spec (hback : ∀ b, back b ∈ T) (hne : ∀ b, back b ≠ back !b)
    (h : Standing U T back s f) (hk : IsKey k) (hf : k ∉ f) (hfew : f.keys.card < 2 ^ 24)
    (v : V) :
    wp (mapPut back k v) (fun _ s' => s.2.mem.failures < s'.2.mem.failures ∨
        Standing U T back s' (f.insert k v) ∧ 0 < s'.1.table.capacity) (grew s) s := by
  have hsize : s.1.table.size < 2 ^ 24 := h.holds.size ▸ hfew
  obtain ⟨hleft, hmoved⟩ := percent_spec hsize
  simp only [mapPut, wp_rules, rehashIf, wp_attempt, decide_eq_true_eq]
  refine ⟨fun _ => ⟨fun hfull => ?_, fun hlow => ?_⟩, fun hno => (hno hk.1).elim⟩
  · refine wp_mono (rehash_spec hback hne h.backed h.holds
      (nextPages_le h.backed (hmoved hfull))) (fun _ r hr => ?_) (fun _ r hr => ?_)
    · obtain ⟨hb, hh, hlarger, hpage⟩ := hr
      have hsr : r.1.table.size = s.1.table.size := hh.size.trans h.holds.size.symm
      refine wp_post (onTable_put hb hh hk hf ?_ v) fun _ _ => Or.inr
      rcases Nat.eq_zero_or_pos s.1.table.capacity with hz | hpos
      · have h1 := h.holds.size_le
        have h2 : 256 ≤ r.1.table.capacity := hpage
        omega
      · have := h.room hpos
        omega
    · have hgrew : ∀ u : Map V × Forest ι, u.2 = r.2 → s.2.mem.failures < u.2.mem.failures :=
        fun u hu => by
          rw [hu]
          exact hr
      exact wp_imp (onTable_mem _) (fun _ u hu => Or.inl (hgrew u hu)) (fun _ u hu => hgrew u hu)
        fun _ u hu => hgrew u hu
  · have hlt := hleft (Nat.lt_of_not_le hlow)
    refine wp_post (onTable_put h.backed h.holds hk hf ?_ v) fun _ _ => Or.inr
    have hcap : s.1.table.capacity = s.1.npages * 256 := h.backed.cap
    omega

/-! ### Runs -/

inductive MapOp (V : Type)
  | put (key : ℕ) (val : V)
  | get (key : ℕ)
  | erase (key : ℕ)
  | iter

inductive MapReply (V : Type)
  | done
  | found (val : V)
  | pairs (l : Multiset (ℕ × V))

/-- An iteration goes through the current table from `map_iter_init` to the end. -/
def MapOp.body (back : Bool → ι) : MapOp V → MapM ι V (MapReply V)
  | .put k v => do
    mapPut back k v
    pure .done
  | .get k => do
    let v ← mapGet k
    pure (.found v)
  | .erase k => do
    mapErase k
    pure .done
  | .iter => do
    let s ← state
    pure (.pairs s.1.table.toList)

def mapping (back : Bool → ι) :
    Process (Map V × Forest ι) (MapOp V) (Except Errno (MapReply V)) where
  step op s := (op.body back).reply s

/-- The finite map that it is to be. -/
def reference : Process (Finmap fun _ : ℕ => V) (MapOp V) (Except Errno (MapReply V)) where
  step op f := some <|
    match op with
    | .put k v => if k ∈ f then (.error .inval, f) else (.ok .done, f.insert k v)
    | .get k =>
      if IsKey k then
        match f.lookup k with
        | some v => (.ok (.found v), f)
        | none => (.error .notFound, f)
      else (.error .inval, f)
    | .erase k =>
      if IsKey k then if k ∈ f then (.ok .done, f.erase k) else (.error .notFound, f)
      else (.error .inval, f)
    | .iter => (.ok (.pairs (f.entries.map fun e => (e.1, e.2))), f)

/-- The keys that are put are new, and at most `2 ^ 24` are there at a time. -/
def MapOp.ok (f : Finmap fun _ : ℕ => V) : MapOp V → Prop
  | .put k _ => IsKey k ∧ k ∉ f ∧ f.keys.card < 2 ^ 24
  | _ => True

/-- `page_alloc` does not fail in the operation. -/
def MapOp.calm (back : Bool → ι) (s : Map V × Forest ι) (op : MapOp V) : Prop :=
  (op.body back s).2.2.mem.failures = s.2.mem.failures
  deriving Decidable

lemma Holds.pairs (h : Holds t f) :
    (t.toList : Multiset (ℕ × V)) = f.entries.map fun e => (e.1, e.2) := by
  have hl : (t.toList : Multiset (ℕ × V)).Nodup :=
    Multiset.coe_nodup.mpr (List.Nodup.of_map Prod.fst h.nodup_toList)
  have hf : (f.entries.map fun e => (e.1, e.2)).Nodup :=
    f.nodup_entries.map fun ⟨_, _⟩ ⟨_, _⟩ heq => by
      cases heq
      rfl
  refine (hl.ext hf).mpr fun ⟨k, v⟩ => ?_
  rw [Multiset.mem_coe, h.mem_toList, ← Option.mem_def, Finmap.mem_lookup_iff, Multiset.mem_map]
  constructor
  · exact fun hkv => ⟨_, hkv, rfl⟩
  · rintro ⟨⟨k', v'⟩, hkv, heq⟩
    cases heq
    exact hkv

lemma hashFind_notKey (hk : ¬ IsKey k) : hashFind k t = (.err .inval, t) := by
  show (if k = 0 ∨ k = tomb then _ else _ : HtM V ℕ) t = _
  rw [if_pos (not_isKey.mp hk)]
  rfl

lemma hashGet_notKey (hk : ¬ IsKey k) : hashGet k t = (.err .inval, t) := by
  show Comp.bind (hashFind k) _ t = _
  simp only [Comp.bind, hashFind_notKey hk]

lemma hashDel_notKey (hk : ¬ IsKey k) : hashDel k t = (.err .inval, t) := by
  show Comp.bind (hashFind k) _ t = _
  simp only [Comp.bind, hashFind_notKey hk]

/-- What a run has led to. -/
def Ran (U : Finset Ppn) (T : Finset ι) (back : Bool → ι) (past : List (MapOp V))
    (s : Map V × Forest ι) (f : Finmap fun _ : ℕ => V) : Prop :=
  Standing U T back s f ∧ ((∃ k v, .put k v ∈ past) → 0 < s.1.table.capacity)

namespace Ran

variable {past : List (MapOp V)} {op : MapOp V}

omit [DecidableEq ι] in
lemma next (h : Ran U T back past s f) (hop : ∀ k v, op ≠ .put k v)
    {g : Finmap fun _ : ℕ => V} (hh : Holds t g)
    (hcap : t.capacity = s.1.table.capacity) (hsize : t.size ≤ s.1.table.size) :
    Ran U T back (past ++ [op]) ({ s.1 with table := t }, s.2) g := by
  refine ⟨⟨h.1.backed.withTable hcap, hh, fun hpos => ?_⟩, fun ⟨k, v, hkv⟩ => ?_⟩
  · simp only [hcap] at hpos ⊢
    exact Nat.lt_of_le_of_lt hsize (h.1.room hpos)
  · rcases List.mem_append.mp hkv with hkv | hkv
    · simp only [hcap]
      exact h.2 ⟨k, v, hkv⟩
    · exact absurd (List.mem_singleton.mp hkv).symm (hop k v)

lemma step (hback : ∀ b, back b ∈ T) (hne : ∀ b, back b ≠ back !b) (h : Ran U T back past s f)
    (hcalm : op.calm back s) (hok : op.ok f) :
    ∃ o s' f', (mapping back).step op s = some (o, s') ∧ reference.step op f = some (o, f') ∧
      Ran U T back (past ++ [op]) s' f' := by
  have hh := h.1.holds
  cases op with
  | put k v =>
    obtain ⟨hk, hf, hfew⟩ := hok
    have hspec : wp (MapOp.body back (.put k v))
        (fun r s' => r = .done ∧ (s.2.mem.failures < s'.2.mem.failures ∨
          Standing U T back s' (f.insert k v) ∧ 0 < s'.1.table.capacity)) (grew s) s := by
      simp only [MapOp.body, wp_rules, true_and]
      exact mapPut_spec hback hne h.1 hk hf hfew v
    rw [MapOp.calm] at hcalm
    obtain ⟨r, s', hrun, rfl, hs'⟩ :=
      ok_of_wp (f := fun r : Map V × Forest ι => r.2.mem.failures) hspec hcalm
    rw [hrun] at hcalm
    obtain ⟨hst, hpos⟩ := hs'.resolve_left hcalm.not_gt
    exact ⟨.ok .done, s', f.insert k v, by simp only [mapping, reply, hrun],
      by simp [reference, hf], hst, fun _ => hpos⟩
  | get k =>
    have hnext : Ran U T back (past ++ [.get k]) s f := h.next (by simp) hh rfl (Nat.le_refl _)
    have hrun : ∀ {o : Outcome Errno V}, hashGet k s.1.table = (o, s.1.table) →
        (mapGet k : MapM ι V V) s = (o, s) := fun ho => onTable_eq ho
    by_cases hk : IsKey k
    · by_cases hf : k ∈ f
      · obtain ⟨v, hv⟩ := Finmap.mem_iff.mp hf
        exact ⟨.ok (.found v), s, f, reply_ok (hrun (hashGet_of_mem hh hv)),
          by simp [reference, hk, hv], hnext⟩
      · exact ⟨.error .notFound, s, f, reply_err (hrun (hashGet_of_notMem hh hk hf)),
          by simp [reference, hk, Finmap.lookup_eq_none.mpr hf], hnext⟩
    · exact ⟨.error .inval, s, f, reply_err (hrun (hashGet_notKey hk)),
        by simp [reference, hk], hnext⟩
  | erase k =>
    have hsame : Ran U T back (past ++ [.erase k]) s f := h.next (by simp) hh rfl (Nat.le_refl _)
    have hrun : ∀ {o : Outcome Errno Unit} {t : Hashtable V}, hashDel k s.1.table = (o, t) →
        (mapErase k : MapM ι V Unit) s = (o, ({ s.1 with table := t }, s.2)) :=
      fun ho => onTable_eq ho
    by_cases hk : IsKey k
    · by_cases hf : k ∈ f
      · obtain ⟨t', ht', hcap, hh'⟩ := hashDel_of_mem hh hf
        have hsize : t'.size ≤ s.1.table.size := by
          rw [hh'.size, hh.size, Finmap.keys_erase]
          exact Finset.card_erase_le
        exact ⟨.ok .done, _, f.erase k, reply_ok (hrun ht'),
          by simp [reference, hk, hf], h.next (by simp) hh' hcap hsize⟩
      · exact ⟨.error .notFound, s, f, reply_err (hrun (hashDel_of_notMem hh hk hf)),
          by simp [reference, hk, hf], hsame⟩
    · exact ⟨.error .inval, s, f, reply_err (hrun (hashDel_notKey hk)),
        by simp [reference, hk], hsame⟩
  | iter =>
    refine ⟨.ok (.pairs s.1.table.toList), s, f, rfl, ?_, h.next (by simp) hh rfl (Nat.le_refl _)⟩
    simp only [reference, hh.pairs]

end Ran

lemma ran_of_meets (hback : ∀ b, back b ∈ T) (hne : back false ≠ back true)
    {w : Forest ι} (hw : w.Sound U T) (hempty : ∀ b, (w.tree (back b)).Empty) (pid : ℕ)
    (ops : List (MapOp V)) (hops : reference.Meets MapOp.ok ops ∅)
    (hcalm : (mapping back).Meets (MapOp.calm back) ops (mapInit pid, w)) :
    ∃ answers s f, (mapping back).trace ops (mapInit pid, w) = some (answers, s) ∧
      reference.trace ops ∅ = some (answers, f) ∧ Ran U T back ops s f := by
  have hne' : ∀ b, back b ≠ back !b := by
    intro b
    cases b
    · exact hne
    · exact hne.symm
  have hinit : Holds (mapInit pid : Map V).table ∅ := Holds.init fun h => absurd h (by decide)
  have h0 : Ran U T back [] (mapInit pid, w) (∅ : Finmap fun _ : ℕ => V) :=
    ⟨⟨⟨hw, (Nat.zero_mul _).symm, hempty _, fun i hi => absurd hi (Nat.not_lt_zero i)⟩, hinit,
      fun h => h⟩, by simp⟩
  exact Process.trace_of_meets₂ (fun _ _ _ _ h hc ho => h.step hback hne' hc ho) [] h0 hcalm hops

/-- **The growing map is a finite map** as long as no allocation fails, and once a key has been
put its table always has a free entry. No access to the memory of the table panics. -/
theorem growing_map_is_finite_map (hback : ∀ b, back b ∈ T) (hne : back false ≠ back true)
    {w : Forest ι} (hw : w.Sound U T) (hempty : ∀ b, (w.tree (back b)).Empty) (pid : ℕ)
    (ops : List (MapOp V)) (hops : reference.Meets MapOp.ok ops ∅)
    (hcalm : (mapping back).Meets (MapOp.calm back) ops (mapInit pid, w)) :
    ∃ answers s f, (mapping back).trace ops (mapInit pid, w) = some (answers, s) ∧
      reference.trace ops ∅ = some (answers, f) ∧
      ((∃ k v, .put k v ∈ ops) → ∃ i < s.1.table.capacity, ¬ IsKey (s.1.table.ent i).key) ∧
      ∀ i < s.1.table.capacity, ∃ q, getHashEnt (back s.1.cur) i s.2 =
        (.ok (some q, i % nHashentryPerPage), s.2) := by
  obtain ⟨answers, s, f, hs, hf, hst, hput⟩ := ran_of_meets hback hne hw hempty pid ops hops hcalm
  refine ⟨answers, s, f, hs, hf, fun hp => ?_, fun i hi => hst.backed.getHashEnt hi⟩
  have hpos := hput hp
  exact hst.holds.exists_free (hst.room hpos)

instance (f : Finmap fun _ : ℕ => V) (op : MapOp V) : Decidable (op.ok f) := by
  cases op <;> unfold MapOp.ok <;> infer_instance

/-- The two trees of a map on a machine of four pages. -/
def bare : Forest Bool where
  tree _ := pagetreeInit false 0
  hand := []
  mem := bootMemory 4

lemma bare_sound : bare.Sound (Finset.range 4) Finset.univ :=
  Forest.Sound.init ⟨bootMemory_boot 4, rfl, fun _ _ => ⟨false, 0, rfl⟩⟩

def puts (n : ℕ) : List (MapOp Bool) := (List.range n).map fun k => .put (k + 1) true

/-- The last key is put into a second table, of two pages. -/
def putRun : List (MapOp Bool) := .get 5 :: puts 181 ++ [.iter, .get 5, .erase 5, .get 5]

theorem growing_map_is_finite_map_putRun :
    reference.Meets MapOp.ok putRun ∅ ∧
    (mapping id).Meets (MapOp.calm id) putRun (mapInit 0, bare) ∧
    ∃ answers s f, (mapping id).trace putRun (mapInit 0, bare) = some (answers, s) ∧
      reference.trace putRun ∅ = some (answers, f) ∧
      ((∃ k v, .put k v ∈ putRun) → ∃ i < s.1.table.capacity, ¬ IsKey (s.1.table.ent i).key) ∧
      ∀ i < s.1.table.capacity, ∃ q, getHashEnt (id s.1.cur) i s.2 =
        (.ok (some q, i % nHashentryPerPage), s.2) := by
  have hops : reference.Meets MapOp.ok putRun ∅ := by decide +kernel
  have hcalm : (mapping id).Meets (MapOp.calm id) putRun (mapInit 0, bare) := by decide +kernel
  exact ⟨hops, hcalm, growing_map_is_finite_map (fun _ => Finset.mem_univ _) (by decide)
    bare_sound (fun _ => ⟨fun _ _ => rfl, fun _ _ => rfl⟩) 0 putRun hops hcalm⟩

/-- Before the first insertion the table has no entry at all. -/
theorem growing_map_starts_without_entries :
    (mapping id).trace ([] : List (MapOp Bool)) (mapInit 0, bare) = some ([], (mapInit 0, bare)) ∧
    ¬ ∃ i < (mapInit 0 : Map Bool).table.capacity,
      ¬ IsKey ((mapInit 0 : Map Bool).table.ent i).key :=
  ⟨rfl, fun ⟨i, hi, _⟩ => Nat.not_lt_zero i hi⟩

end Corey.Kern
