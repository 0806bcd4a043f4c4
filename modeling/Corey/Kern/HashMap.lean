import Corey.Kern.Map
import Mathlib.Data.Finmap

/-!
The hash table as a finite map (`lib/hashtable.c`).

A key lies on the path that its hash starts, and no entry before it on the path has never been
used. A lookup therefore finds it. An insertion stops at the first entry it can use, so it keeps
a key in one place only if it meets the key before such an entry, or not at all.
-/

namespace Corey.Kern

open Function Corey.Comp Corey.Mem Finset

section

variable {V : Type} {t : Hashtable V} {key i j d : ℕ} {v : V}

/-- A key that stands for itself in an entry. -/
def IsKey (k : ℕ) : Prop := k ≠ 0 ∧ k ≠ tomb
  deriving Decidable

lemma tomb_ne_zero : tomb ≠ 0 := by decide

lemma not_isKey {k : ℕ} : ¬ IsKey k ↔ k = 0 ∨ k = tomb := by
  rw [IsKey, not_and_or, not_not, not_not]

/-! ### The path of a key -/

lemma probe_eq (hc : t.capacity ∣ 2 ^ 64) :
    t.probe key d = ((hash2 key).toNat + d) % t.capacity := by
  rw [Hashtable.probe, UInt64.toNat_add, UInt64.toNat_ofNat', Nat.add_mod_mod,
    Nat.mod_mod_of_dvd _ hc]

lemma probe_lt (h : 0 < t.capacity) : t.probe key d < t.capacity := Nat.mod_lt _ h

lemma probe_surj (key : ℕ) (hc : t.capacity ∣ 2 ^ 64) (hi : i < t.capacity) :
    ∃ d < t.capacity, t.probe key d = i := by
  set n := t.capacity
  set h := (hash2 key).toNat
  have hn : 0 < n := Nat.zero_lt_of_lt hi
  have hh : h % n < n := Nat.mod_lt _ hn
  refine ⟨(i + (n - h % n)) % n, Nat.mod_lt _ hn, ?_⟩
  rw [probe_eq hc, Nat.add_mod_mod]
  have hsum : h + (i + (n - h % n)) = i + n * (h / n + 1) := by
    have := Nat.div_add_mod h n
    rw [Nat.mul_add, Nat.mul_one]
    omega
  rw [hsum, Nat.add_mul_mod_self_left, Nat.mod_eq_of_lt hi]

/-! ### Searching -/

/-- The key of the entry at step `d` of the path. -/
def Hashtable.at (t : Hashtable V) (key d : ℕ) : ℕ := (t.ent (t.probe key d)).key

lemma getProbe_succ (k i : ℕ) : getProbe t key (k + 1) i =
    if t.at key i = key then some (t.probe key i)
    else if t.at key i = 0 then none else getProbe t key k (i + 1) := rfl

lemma getProbe_key : ∀ k i, k ≤ t.capacity → getProbe t key k i = some j →
    j < t.capacity ∧ (t.ent j).key = key
  | 0, _, _, h => absurd h nofun
  | k + 1, i, hk, h => by
    rw [getProbe_succ] at h
    split_ifs at h with hkey
    · cases h
      exact ⟨probe_lt (by omega), hkey⟩
    · exact getProbe_key k _ (by omega) h

lemma putProbe_succ (k i : ℕ) : putProbe t key (k + 1) i =
    if t.at key i = 0 ∨ t.at key i = tomb then pure (some (t.probe key i))
    else if t.at key i = key then pure none else putProbe t key k (i + 1) := rfl

lemma getProbe_found : ∀ (k i : ℕ), i ≤ d → d < i + k → t.at key d = key →
    (∀ e, i ≤ e → e < d → t.at key e ≠ key ∧ t.at key e ≠ 0) →
    getProbe t key k i = some (t.probe key d)
  | 0, i, h1, h2, _, _ => by omega
  | k + 1, i, h1, h2, hd, hbefore => by
    rcases Nat.eq_or_lt_of_le h1 with rfl | hlt
    · rw [getProbe_succ, if_pos hd]
    · obtain ⟨hne, h0⟩ := hbefore i (Nat.le_refl i) hlt
      rw [getProbe_succ, if_neg hne, if_neg h0]
      exact getProbe_found k (i + 1) hlt (by omega) hd fun e he => hbefore e (by omega)

lemma getProbe_absent : ∀ (k i : ℕ), (∀ e, i ≤ e → e < i + k → t.at key e ≠ key) →
    getProbe t key k i = none
  | 0, _, _ => rfl
  | k + 1, i, h => by
    rw [getProbe_succ, if_neg (h i (Nat.le_refl i) (by omega))]
    split
    · rfl
    · exact getProbe_absent k (i + 1) fun e h1 h2 => h e (by omega) (by omega)

lemma putProbe_stop : ∀ (k i : ℕ), i ≤ d → d < i + k →
    (∀ e, i ≤ e → e < d → IsKey (t.at key e) ∧ t.at key e ≠ key) →
    (¬ IsKey (t.at key d) → putProbe t key k i = pure (some (t.probe key d))) ∧
      (IsKey (t.at key d) → t.at key d = key → putProbe t key k i = pure none)
  | 0, i, h1, h2, _ => by omega
  | k + 1, i, h1, h2, hbefore => by
    rcases Nat.eq_or_lt_of_le h1 with rfl | hlt
    · refine ⟨fun hfree => ?_, fun hk heq => ?_⟩
      · rw [putProbe_succ, if_pos (not_isKey.mp hfree)]
      · rw [putProbe_succ, if_neg fun h => not_isKey.mpr h hk, if_pos heq]
    · obtain ⟨hk, hne⟩ := hbefore i (Nat.le_refl i) hlt
      rw [putProbe_succ, if_neg fun h => not_isKey.mpr h hk, if_neg hne]
      exact putProbe_stop k (i + 1) hlt (by omega) fun e he => hbefore e (by omega)

/-! ### The map a table stands for -/

structure Holds (t : Hashtable V) (f : Finmap fun _ : ℕ => V) : Prop where
  pow : 0 < t.capacity → t.capacity ∣ 2 ^ 64
  size : t.size = f.keys.card
  key : ∀ k ∈ f, IsKey k
  entry : ∀ i < t.capacity, IsKey (t.ent i).key →
    ∃ v, (t.ent i).val = some v ∧ f.lookup (t.ent i).key = some v
  place : ∀ k ∈ f, ∃ d < t.capacity, t.at k d = k ∧ ∀ e < d, t.at k e ≠ 0
  unique : ∀ i < t.capacity, ∀ j < t.capacity, IsKey (t.ent i).key →
    (t.ent i).key = (t.ent j).key → i = j

variable {f : Finmap fun _ : ℕ => V}

lemma card_keys_insert (hf : key ∉ f) : (f.insert key v).keys.card = f.keys.card + 1 := by
  have hkeys : (f.insert key v).keys = insert key f.keys := by
    ext k
    simp [Finmap.mem_keys, Finmap.mem_insert]
  rw [hkeys, card_insert_of_notMem (by rwa [Finmap.mem_keys])]

namespace Holds

lemma init {n : ℕ} (hn : 0 < n → n ∣ 2 ^ 64) : Holds (hashInit n : Hashtable V) ∅ where
  pow := hn
  size := rfl
  key _ hk := absurd hk Finmap.notMem_empty
  entry _ _ hk := absurd rfl hk.1
  place _ hk := absurd hk Finmap.notMem_empty
  unique _ _ _ _ hk := absurd rfl hk.1

lemma absent (h : Holds t f) (hk : IsKey key) (hf : key ∉ f) (hi : i < t.capacity) :
    (t.ent i).key ≠ key := by
  intro heq
  obtain ⟨v, -, hv⟩ := h.entry i hi (heq ▸ hk)
  exact hf (Finmap.mem_of_lookup_eq_some (heq ▸ hv))

lemma absent_at (h : Holds t f) (hk : IsKey key) (hf : key ∉ f) (hd : d < t.capacity) :
    t.at key d ≠ key := h.absent hk hf (probe_lt (Nat.zero_lt_of_lt hd))

lemma find (h : Holds t f) (hf : key ∈ f) :
    ∃ i < t.capacity, getProbe t key t.capacity 0 = some i ∧ (t.ent i).key = key := by
  have hex : ∃ d, d < t.capacity ∧ t.at key d = key := by
    obtain ⟨d, hd, heq, -⟩ := h.place key hf
    exact ⟨d, hd, heq⟩
  obtain ⟨hd, heq⟩ := Nat.find_spec hex
  refine ⟨t.probe key (Nat.find hex), probe_lt (Nat.zero_lt_of_lt hd),
    getProbe_found _ _ (Nat.zero_le _) (by omega) heq fun e _ he => ⟨fun hkey => ?_, ?_⟩, heq⟩
  · exact Nat.find_min hex he ⟨by omega, hkey⟩
  · obtain ⟨d, hd', hkey, hbefore⟩ := h.place key hf
    exact hbefore e (Nat.lt_of_lt_of_le he (Nat.find_min' hex ⟨hd', hkey⟩))

lemma find_none (h : Holds t f) (hk : IsKey key) (hf : key ∉ f) :
    getProbe t key t.capacity 0 = none :=
  getProbe_absent _ _ fun e _ he => h.absent_at hk hf (by omega)

lemma size_le (h : Holds t f) : t.size ≤ t.capacity := by
  have hle : f.keys.card ≤ (range t.capacity).card := by
    refine card_le_card_of_surjOn (fun i => (t.ent i).key) fun k hk => ?_
    obtain ⟨i, hi, -, hki⟩ := h.find (Finmap.mem_keys.mp hk)
    exact ⟨i, mem_coe.mpr (mem_range.mpr hi), hki⟩
  rwa [card_range, ← h.size] at hle

lemma exists_free (h : Holds t f) (hroom : t.size < t.capacity) :
    ∃ i < t.capacity, ¬ IsKey (t.ent i).key := by
  by_contra hno
  have hall : ∀ i < t.capacity, IsKey (t.ent i).key := fun i hi => by
    by_contra hk
    exact hno ⟨i, hi, hk⟩
  have hle : (range t.capacity).card ≤ f.keys.card := by
    refine card_le_card_of_injOn (fun i => (t.ent i).key) (fun i hi => ?_) fun i hi j hj heq => ?_
    · have hi' := mem_range.mp hi
      obtain ⟨v, -, hv⟩ := h.entry i hi' (hall i hi')
      exact Finmap.mem_keys.mpr (Finmap.mem_of_lookup_eq_some hv)
    · have hi' := mem_range.mp hi
      exact h.unique i hi' j (mem_range.mp hj) (hall i hi') heq
  rw [card_range, ← h.size] at hle
  omega

end Holds

/-! ### Writing an entry -/

/-- The table with another entry at `i`, and `n` keys. -/
def Hashtable.write (t : Hashtable V) (i n : ℕ) (e : Hashentry V) : Hashtable V :=
  { t with size := n, ent := update t.ent i e }

section

variable {n : ℕ} {e : Hashentry V}

lemma write_self : (t.write i n e).ent i = e := update_self ..

lemma write_of_ne (h : j ≠ i) : (t.write i n e).ent j = t.ent j := update_of_ne h ..

lemma write_probe : (t.write i n e).probe key d = t.probe key d := by
  rw [Hashtable.probe, Hashtable.probe, Hashtable.write]

lemma write_at_self (h : t.probe key d = i) : (t.write i n e).at key d = e.key := by
  rw [Hashtable.at, write_probe, h, write_self]

lemma write_at_of_ne (h : t.probe key d ≠ i) : (t.write i n e).at key d = t.at key d := by
  rw [Hashtable.at, write_probe, write_of_ne h, Hashtable.at]

lemma write_at_ne_zero (he : e.key ≠ 0) (h : t.at key d ≠ 0) : (t.write i n e).at key d ≠ 0 := by
  by_cases hi : t.probe key d = i
  · rwa [write_at_self hi]
  · rwa [write_at_of_ne hi]

end

namespace Holds

lemma put (h : Holds t f) (hk : IsKey key) (hf : key ∉ f) (hd : d < t.capacity)
    (hfree : ¬ IsKey (t.at key d)) (hbefore : ∀ e < d, t.at key e ≠ 0) (v : V) :
    Holds (t.write (t.probe key d) (t.size + 1) ⟨key, some v⟩) (f.insert key v) where
  pow := h.pow
  size := by
    rw [card_keys_insert hf, ← h.size]
    rfl
  key k hk' := by
    rcases Finmap.mem_insert.mp hk' with rfl | hk'
    · exact hk
    · exact h.key k hk'
  entry i hi hki := by
    by_cases heq : i = t.probe key d
    · subst heq
      exact ⟨v, by rw [write_self], by rw [write_self, Finmap.lookup_insert]⟩
    · rw [write_of_ne heq] at hki ⊢
      rw [Finmap.lookup_insert_of_ne _ (h.absent hk hf hi)]
      exact h.entry i hi hki
  place k hk' := by
    rcases Finmap.mem_insert.mp hk' with rfl | hk'
    · exact ⟨d, hd, write_at_self rfl, fun e he => write_at_ne_zero hk.1 (hbefore e he)⟩
    · obtain ⟨e, he, hke, hearlier⟩ := h.place k hk'
      -- the entry of another key is not free
      have hne : t.probe k e ≠ t.probe key d := fun heq => by
        rw [Hashtable.at, heq] at hke
        rw [Hashtable.at, hke] at hfree
        exact hfree (h.key k hk')
      exact ⟨e, he, (write_at_of_ne hne).trans hke, fun c hc =>
        write_at_ne_zero hk.1 (hearlier c hc)⟩
  unique i hi j hj hki heq := by
    by_cases h1 : i = t.probe key d <;> by_cases h2 : j = t.probe key d
    · rw [h1, h2]
    · rw [h1, write_self, write_of_ne h2] at heq
      exact absurd heq.symm (h.absent hk hf hj)
    · rw [h2, write_self, write_of_ne h1] at heq
      exact absurd heq (h.absent hk hf hi)
    · rw [write_of_ne h1] at hki heq
      rw [write_of_ne h2] at heq
      exact h.unique i hi j hj hki heq

lemma del (h : Holds t f) (hf : key ∈ f) (hi : i < t.capacity) (hki : (t.ent i).key = key) :
    Holds (t.write i (t.size - 1) ⟨tomb, none⟩) (f.erase key) where
  pow := h.pow
  size := by
    rw [Finmap.keys_erase, card_erase_of_mem (Finmap.mem_keys.mpr hf), ← h.size]
    rfl
  key k hk := h.key k (Finmap.mem_erase.mp hk).2
  entry j hj hkj := by
    by_cases heq : j = i
    · rw [heq, write_self] at hkj
      exact absurd rfl hkj.2
    · rw [write_of_ne heq] at hkj ⊢
      have hne : (t.ent j).key ≠ key := fun hk => heq (h.unique j hj i hi hkj (hk.trans hki.symm))
      rw [Finmap.lookup_erase_ne hne]
      exact h.entry j hj hkj
  place k hk := by
    obtain ⟨hne, hk⟩ := Finmap.mem_erase.mp hk
    obtain ⟨e, he, hke, hearlier⟩ := h.place k hk
    have hpi : t.probe k e ≠ i := fun heq => by
      rw [Hashtable.at, heq, hki] at hke
      exact hne hke.symm
    exact ⟨e, he, (write_at_of_ne hpi).trans hke,
      fun c hc => write_at_ne_zero tomb_ne_zero (hearlier c hc)⟩
  unique a ha b hb hka heq := by
    have h1 : a ≠ i := fun h1 => by
      rw [h1, write_self] at hka
      exact hka.2 rfl
    have h2 : b ≠ i := fun h2 => by
      rw [h2, write_self] at heq
      exact hka.2 heq
    rw [write_of_ne h1] at hka heq
    rw [write_of_ne h2] at heq
    exact h.unique a ha b hb hka heq

end Holds

/-! ### The operations -/

lemma hashFind_eq (hk : IsKey key) : hashFind key t =
    match getProbe t key t.capacity 0 with
    | none => (.err .notFound, t)
    | some i => (.ok i, t) := by
  show (if key = 0 ∨ key = tomb then _ else _ : HtM V ℕ) t = _
  rw [if_neg fun h => not_isKey.mpr h hk]
  cases getProbe t key t.capacity 0 <;> rfl

lemma hashGet_of_mem (h : Holds t f) (hv : f.lookup key = some v) :
    hashGet key t = (.ok v, t) := by
  have hf := Finmap.mem_of_lookup_eq_some hv
  obtain ⟨i, hi, hfind, hki⟩ := h.find hf
  obtain ⟨w, hw, hlook⟩ := h.entry i hi (hki ▸ h.key key hf)
  rw [hki, hv] at hlook
  cases hlook
  show Comp.bind (hashFind key) _ t = _
  simp only [Comp.bind, hashFind_eq (h.key key hf), hfind]
  show need .panic (t.ent i).val t = _
  rw [hw]
  rfl

lemma hashGet_of_notMem (h : Holds t f) (hk : IsKey key) (hf : key ∉ f) :
    hashGet key t = (.err .notFound, t) := by
  show Comp.bind (hashFind key) _ t = _
  simp only [Comp.bind, hashFind_eq hk, h.find_none hk hf]

lemma hashDel_of_mem (h : Holds t f) (hf : key ∈ f) :
    ∃ t', hashDel key t = (.ok (), t') ∧ t'.capacity = t.capacity ∧ Holds t' (f.erase key) := by
  obtain ⟨i, hi, hfind, hki⟩ := h.find hf
  refine ⟨t.write i (t.size - 1) ⟨tomb, none⟩, ?_, rfl, h.del hf hi hki⟩
  show Comp.bind (hashFind key) _ t = _
  simp only [Comp.bind, hashFind_eq (h.key key hf), hfind]
  rfl

lemma hashDel_of_notMem (h : Holds t f) (hk : IsKey key) (hf : key ∉ f) :
    hashDel key t = (.err .notFound, t) := by
  show Comp.bind (hashFind key) _ t = _
  simp only [Comp.bind, hashFind_eq hk, h.find_none hk hf]

lemma hashPut_eq (hk : IsKey key) (hroom : t.size ≠ t.capacity) : hashPut key v t =
    Comp.bind (putProbe t key t.capacity 0) (fun
      | none => raise .inval
      | some i => change fun t =>
          { t with size := t.size + 1, ent := update t.ent i ⟨key, some v⟩ }) t := by
  show (if key = 0 ∨ key = tomb then _ else if t.size = t.capacity then _ else _ : HtM V Unit) t = _
  rw [if_neg fun h => not_isKey.mpr h hk, if_neg hroom]
  rfl

lemma hashPut_of_notMem (h : Holds t f) (hk : IsKey key) (hf : key ∉ f)
    (hroom : t.size < t.capacity) (v : V) :
    ∃ t', hashPut key v t = (.ok (), t') ∧ t'.capacity = t.capacity ∧
      Holds t' (f.insert key v) := by
  have hex : ∃ d, d < t.capacity ∧ ¬ IsKey (t.at key d) := by
    obtain ⟨i, hi, hfree⟩ := h.exists_free hroom
    obtain ⟨d, hd, hprobe⟩ := probe_surj key (h.pow (Nat.zero_lt_of_lt hi)) hi
    exact ⟨d, hd, by rwa [Hashtable.at, hprobe]⟩
  obtain ⟨hd, hfree⟩ := Nat.find_spec hex
  have hbefore : ∀ e < Nat.find hex, IsKey (t.at key e) := fun e he => by
    by_contra hk
    exact Nat.find_min hex he ⟨he.trans hd, hk⟩
  refine ⟨t.write (t.probe key (Nat.find hex)) (t.size + 1) ⟨key, some v⟩, ?_, rfl,
    h.put hk hf hd hfree (fun e he => (hbefore e he).1) v⟩
  have hstop := (putProbe_stop t.capacity 0 (Nat.zero_le _) (by rwa [Nat.zero_add])
    fun e _ he => ⟨hbefore e he, h.absent_at hk hf (he.trans hd)⟩).1 hfree
  rw [hashPut_eq hk hroom.ne, hstop]
  rfl

lemma hashPut_full (hk : IsKey key) (hfull : t.size = t.capacity) :
    hashPut key v t = (.err .noSpace, t) := by
  show (if key = 0 ∨ key = tomb then _ else if t.size = t.capacity then _ else _ : HtM V Unit) t = _
  rw [if_neg fun h => not_isKey.mpr h hk, if_pos hfull]
  rfl

/-- The key comes before every entry that could take it. -/
def MetFirst (t : Hashtable V) (key : ℕ) : Prop :=
  ∃ d < t.capacity, t.at key d = key ∧ ∀ e < d, IsKey (t.at key e)

instance (t : Hashtable V) (key : ℕ) : Decidable (MetFirst t key) :=
  inferInstanceAs (Decidable (∃ d, d < t.capacity ∧ _ ∧ ∀ e, e < d → _))

lemma hashPut_met (hk : IsKey key) (hroom : t.size ≠ t.capacity) (hmet : MetFirst t key) :
    hashPut key v t = (.err .inval, t) := by
  have hex : ∃ d, d < t.capacity ∧ t.at key d = key := by
    obtain ⟨d, hd, heq, -⟩ := hmet
    exact ⟨d, hd, heq⟩
  obtain ⟨hd, heq⟩ := Nat.find_spec hex
  obtain ⟨d, hd', hkey, hbefore⟩ := hmet
  have hstop := (putProbe_stop t.capacity 0 (Nat.zero_le _) (by rwa [Nat.zero_add])
    fun e _ he => ⟨hbefore e (Nat.lt_of_lt_of_le he (Nat.find_min' hex ⟨hd', hkey⟩)),
      fun hke => Nat.find_min hex he ⟨he.trans hd, hke⟩⟩).2 (by rwa [heq]) heq
  rw [hashPut_eq hk hroom, hstop]
  rfl

/-! ### Iterating -/

lemma entries_of_key (k i : ℕ) (hk : IsKey (t.ent i).key) (hv : (t.ent i).val = some v) :
    t.entries (k + 1) i = ((t.ent i).key, v) :: t.entries k (i + 1) := by
  have hb : ((t.ent i).key = 0 || (t.ent i).key = tomb : Bool) = false := by
    simpa [IsKey] using hk
  simp only [Hashtable.entries, hb, hv]

lemma entries_of_free (k i : ℕ) (hk : ¬ IsKey (t.ent i).key) :
    t.entries (k + 1) i = t.entries k (i + 1) := by
  have hb : ((t.ent i).key = 0 || (t.ent i).key = tomb : Bool) = true := by
    simpa using not_isKey.mp hk
  simp only [Hashtable.entries, hb]

lemma mem_entries_succ {a : ℕ} (k i : ℕ) : (a, v) ∈ t.entries (k + 1) i ↔
    IsKey a ∧ (t.ent i).key = a ∧ (t.ent i).val = some v ∨ (a, v) ∈ t.entries k (i + 1) := by
  by_cases hk : IsKey (t.ent i).key
  · cases hv : (t.ent i).val with
    | none =>
      have hskip : t.entries (k + 1) i = t.entries k (i + 1) := by
        rw [Hashtable.entries, hv]
        split
        · contradiction
        · rfl
      rw [hskip]
      simp
    | some w =>
      rw [entries_of_key k i hk hv, List.mem_cons, Prod.mk.injEq, Option.some.injEq]
      constructor
      · rintro (⟨rfl, rfl⟩ | h)
        · exact .inl ⟨hk, rfl, rfl⟩
        · exact .inr h
      · rintro (⟨-, rfl, rfl⟩ | h)
        · exact .inl ⟨rfl, rfl⟩
        · exact .inr h
  · rw [entries_of_free k i hk]
    exact ⟨.inr, fun h => h.resolve_left fun ⟨ha, hkey, _⟩ => hk (hkey ▸ ha)⟩

lemma mem_entries {a : ℕ} : ∀ k i, (a, v) ∈ t.entries k i ↔
    ∃ j, i ≤ j ∧ j < i + k ∧ IsKey a ∧ (t.ent j).key = a ∧ (t.ent j).val = some v
  | 0, i => by
    simp only [Hashtable.entries, List.not_mem_nil, false_iff]
    rintro ⟨j, h1, h2, -⟩
    omega
  | k + 1, i => by
    rw [mem_entries_succ, mem_entries k (i + 1)]
    constructor
    · rintro (h | ⟨j, h1, h2, h3⟩)
      · exact ⟨i, Nat.le_refl i, by omega, h⟩
      · exact ⟨j, by omega, by omega, h3⟩
    · rintro ⟨j, h1, h2, h3⟩
      rcases Nat.eq_or_lt_of_le h1 with rfl | hlt
      · exact .inl h3
      · exact .inr ⟨j, hlt, by omega, h3⟩

lemma mem_toList {a : ℕ} : (a, v) ∈ t.toList ↔
    ∃ j < t.capacity, IsKey a ∧ (t.ent j).key = a ∧ (t.ent j).val = some v := by
  rw [Hashtable.toList, mem_entries]
  simp

namespace Holds

lemma mem_toList (h : Holds t f) {a : ℕ} : (a, v) ∈ t.toList ↔ f.lookup a = some v := by
  rw [Kern.mem_toList]
  constructor
  · rintro ⟨j, hj, ha, hkey, hv⟩
    obtain ⟨w, hw, hlook⟩ := h.entry j hj (hkey ▸ ha)
    rw [hv] at hw
    cases hw
    rwa [hkey] at hlook
  · intro hv
    have hf := Finmap.mem_of_lookup_eq_some hv
    obtain ⟨i, hi, -, hki⟩ := h.find hf
    obtain ⟨w, hw, hlook⟩ := h.entry i hi (hki ▸ h.key a hf)
    rw [hki, hv] at hlook
    cases hlook
    exact ⟨i, hi, h.key a hf, hki, hw⟩

lemma nodup_entries (h : Holds t f) :
    ∀ k i, i + k ≤ t.capacity → ((t.entries k i).map Prod.fst).Nodup
  | 0, _, _ => List.nodup_nil
  | k + 1, i, hle => by
    have ih := h.nodup_entries k (i + 1) (by omega)
    by_cases hk : IsKey (t.ent i).key
    · obtain ⟨w, hw, -⟩ := h.entry i (by omega) hk
      rw [entries_of_key k i hk hw, List.map_cons, List.nodup_cons]
      refine ⟨fun hmem => ?_, ih⟩
      obtain ⟨⟨a, u⟩, hau, heq⟩ := List.mem_map.mp hmem
      obtain ⟨j, h1, h2, -, hkey, -⟩ := (mem_entries k (i + 1)).mp hau
      -- the same key further on would be in two places
      have := h.unique i (by omega) j (by omega) hk (heq.symm.trans hkey.symm)
      omega
    · rwa [entries_of_free k i hk]

lemma nodup_toList (h : Holds t f) : (t.toList.map Prod.fst).Nodup :=
  h.nodup_entries t.capacity 0 (by omega)

lemma length_toList_le (h : Holds t f) : t.toList.length ≤ t.size := by
  rw [← List.length_map (f := Prod.fst), ← List.toFinset_card_of_nodup h.nodup_toList, h.size]
  refine card_le_card fun k hk => ?_
  obtain ⟨⟨k', v⟩, hkv, rfl⟩ := List.mem_map.mp (List.mem_toFinset.mp hk)
  exact Finmap.mem_keys.mpr (Finmap.mem_of_lookup_eq_some (h.mem_toList.mp hkv))

end Holds

end

/-! ### Runs -/

variable {V : Type} {t : Hashtable V} {f : Finmap fun _ : ℕ => V}

inductive HashOp (V : Type)
  | put (key : ℕ) (val : V)
  | get (key : ℕ)
  | del (key : ℕ)

def HashOp.key : HashOp V → ℕ
  | .put k _ => k
  | .get k => k
  | .del k => k

def HashOp.body : HashOp V → HtM V (Option V)
  | .put k v => do
    hashPut k v
    pure none
  | .get k => do
    let v ← hashGet k
    pure (some v)
  | .del k => do
    hashDel k
    pure none

def hashing : Process (Hashtable V) (HashOp V) (Except Errno (Option V)) where
  step op t := op.body.reply t

/-- The finite map that the table with `n` entries is to be. -/
def finiteMap (n : ℕ) : Process (Finmap fun _ : ℕ => V) (HashOp V) (Except Errno (Option V)) where
  step op f := some <|
    match op with
    | .put k v =>
      if k ∈ f then (.error .inval, f)
      else if f.keys.card = n then (.error .noSpace, f)
      else (.ok none, f.insert k v)
    | .get k =>
      match f.lookup k with
      | some v => (.ok (some v), f)
      | none => (.error .notFound, f)
    | .del k => if k ∈ f then (.ok none, f.erase k) else (.error .notFound, f)

/-- No entry has the key, or an insertion meets the key before an entry that it could use. -/
def PutMeets (t : Hashtable V) (key : ℕ) : Prop :=
  (∀ i < t.capacity, (t.ent i).key ≠ key) ∨ t.size < t.capacity ∧ MetFirst t key

instance (t : Hashtable V) (key : ℕ) : Decidable (PutMeets t key) :=
  inferInstanceAs (Decidable (_ ∨ _))

def HashOp.ok (t : Hashtable V) (op : HashOp V) : Prop :=
  IsKey op.key ∧
    match op with
    | .put k _ => PutMeets t k
    | _ => True

instance (t : Hashtable V) (op : HashOp V) : Decidable (op.ok t) := by
  cases op <;> unfold HashOp.ok <;> infer_instance

namespace Holds

lemma met (h : Holds t f) {k : ℕ} (hf : k ∈ f) (hput : PutMeets t k) :
    t.size < t.capacity ∧ MetFirst t k := by
  rcases hput with hno | hmet
  · obtain ⟨i, hi, -, hki⟩ := h.find hf
    exact absurd hki (hno i hi)
  · exact hmet

lemma step (h : Holds t f) (op : HashOp V) (hok : op.ok t) :
    ∃ o t' f', hashing.step op t = some (o, t') ∧
      (finiteMap t.capacity).step op f = some (o, f') ∧ t'.capacity = t.capacity ∧
      Holds t' f' := by
  obtain ⟨hk, hput⟩ := hok
  cases op with
  | put k v =>
    change IsKey k at hk
    by_cases hf : k ∈ f
    · obtain ⟨hroom, hmet⟩ := h.met hf hput
      exact ⟨.error .inval, t, f, reply_err (hashPut_met hk hroom.ne hmet),
        by simp [finiteMap, hf], rfl, h⟩
    · by_cases hfull : t.size = t.capacity
      · exact ⟨.error .noSpace, t, f, reply_err (hashPut_full hk hfull),
          by simp [finiteMap, hf, ← h.size, hfull], rfl, h⟩
      · obtain ⟨t', ht', hcap, hh⟩ := hashPut_of_notMem h hk hf
          (Nat.lt_of_le_of_ne h.size_le hfull) v
        exact ⟨.ok none, t', f.insert k v, reply_ok ht',
          by simp [finiteMap, hf, ← h.size, hfull], hcap, hh⟩
  | get k =>
    change IsKey k at hk
    by_cases hf : k ∈ f
    · obtain ⟨v, hv⟩ := Finmap.mem_iff.mp hf
      exact ⟨.ok (some v), t, f, reply_ok (hashGet_of_mem h hv), by simp [finiteMap, hv], rfl, h⟩
    · exact ⟨.error .notFound, t, f, reply_err (hashGet_of_notMem h hk hf),
        by simp [finiteMap, Finmap.lookup_eq_none.mpr hf], rfl, h⟩
  | del k =>
    change IsKey k at hk
    by_cases hf : k ∈ f
    · obtain ⟨t', ht', hcap, hh⟩ := hashDel_of_mem h hf
      exact ⟨.ok none, t', f.erase k, reply_ok ht', by simp [finiteMap, hf], hcap, hh⟩
    · exact ⟨.error .notFound, t, f, reply_err (hashDel_of_notMem h hk hf),
        by simp [finiteMap, hf], rfl, h⟩

end Holds

/-- **The hash table is a finite map** as long as no insertion of a key it has finds a free
entry, or a full table, before the key. -/
theorem hash_table_is_finite_map (e : ℕ) (he : e ≤ 64) (ops : List (HashOp V))
    (hops : hashing.Meets (fun t op => op.ok t) ops (hashInit (2 ^ e))) :
    ∃ answers t f, hashing.trace ops (hashInit (2 ^ e)) = some (answers, t) ∧
      (finiteMap (2 ^ e)).trace ops ∅ = some (answers, f) ∧
      (∀ i < 2 ^ e, ∀ j < 2 ^ e, IsKey (t.ent i).key → (t.ent i).key = (t.ent j).key → i = j) ∧
      (∀ k v, k ∈ f → PutMeets t k → hashPut k v t = (.err .inval, t)) ∧
      t.size = f.keys.card ∧ (t.toList.map Prod.fst).Nodup ∧
      ∀ k v, (k, v) ∈ t.toList ↔ f.lookup k = some v := by
  obtain ⟨answers, t, f, ht, hf, hcap, h⟩ := Process.trace_of_meets
    (Q := finiteMap (2 ^ e)) (R := fun t f => t.capacity = 2 ^ e ∧ Holds t f)
    (fun op t f ⟨hcap, h⟩ hok => by
      obtain ⟨o, t', f', ht, hf, hcap', h'⟩ := h.step op hok
      exact ⟨o, t', f', ht, hcap ▸ hf, hcap'.trans hcap, h'⟩)
    ⟨rfl, Holds.init fun _ => Nat.pow_dvd_pow 2 he⟩ hops
  refine ⟨answers, t, f, ht, hf, hcap ▸ h.unique, fun k v hk hput => ?_, h.size, h.nodup_toList,
    fun k v => h.mem_toList⟩
  obtain ⟨hroom, hmet⟩ := h.met hk hput
  exact hashPut_met (h.key k hk) hroom.ne hmet

/-- Two keys whose paths start at one entry: the second is put again while both are there. -/
def collideRun : List (HashOp Bool) :=
  [.put 1 true, .put 3 true, .put 3 false, .get 3, .del 1, .get 1, .get 3]

theorem hash_table_is_finite_map_collide :
    hashing.Meets (fun t op => op.ok t) collideRun (hashInit (2 ^ 2)) ∧
    ∃ answers t f, hashing.trace collideRun (hashInit (2 ^ 2)) = some (answers, t) ∧
      (finiteMap (2 ^ 2)).trace collideRun ∅ = some (answers, f) ∧
      (∀ i < 2 ^ 2, ∀ j < 2 ^ 2, IsKey (t.ent i).key → (t.ent i).key = (t.ent j).key → i = j) ∧
      (∀ k v, k ∈ f → PutMeets t k → hashPut k v t = (.err .inval, t)) ∧
      t.size = f.keys.card ∧ (t.toList.map Prod.fst).Nodup ∧
      ∀ k v, (k, v) ∈ t.toList ↔ f.lookup k = some v := by
  have hops : hashing.Meets (fun t op => op.ok t) collideRun (hashInit (2 ^ 2)) := by
    decide +kernel
  exact ⟨hops, hash_table_is_finite_map 2 (by decide) collideRun hops⟩

/-- Put again after the first key has gone, the second is in two entries: the insertion stops
at the tombstone. -/
def twiceRun : List (HashOp Bool) := [.put 1 true, .put 3 true, .del 1, .put 3 false]

theorem hash_table_has_key_twice :
    (hashing.trace twiceRun (hashInit (2 ^ 2))).map (fun r => (r.1, r.2.size, r.2.toList)) =
      some ([.ok none, .ok none, .ok none, .ok none], 2, [(3, false), (3, true)]) ∧
    ((finiteMap (2 ^ 2)).trace twiceRun ∅).map (fun r => r.1) =
      some [.ok none, .ok none, .ok none, .error .inval] := by
  decide +kernel

end Corey.Kern
