import Corey.Kern.Pmap

/-!
The links of a list of mappings (`kern/atmap.c`, `inc/queue.h`).

A mapping knows its successor, and where its own address is written: in the head of the list or
in the mapping before it. Mappings are unlinked while the list is gone through, with the next one
looked up behind the last that stayed. The tables give each field by the address of the mapping,
the tree or the object.

The list is locked all the time, and each mapping that is taken out is invalidated in the tree it
belongs to. For an interior tree this goes through another list, that of the tree, and locks it.
-/

namespace Corey.Kern.MappingList

open Function

/-- What the loops only read. -/
structure Fields where
  /-- the tree whose list is gone through; none for the list of a segment -/
  owner : Option ℕ := none
  amSh : ℕ → ℕ
  amPs : ℕ → ℕ
  amParent : ℕ → ℕ
  amVaFirst : ℕ → ℕ
  amVaLast : ℕ → ℕ
  atInterior : ℕ → Bool
  /-- the lists of all trees but the owner -/
  atMapList : ℕ → List ℕ

/-- A link is given by the mapping it is in, or by none if it is the head's. -/
structure Maps where
  lhFirst : Option ℕ
  leNext : ℕ → Option ℕ
  lePrev : ℕ → Option ℕ
  amKobj : ℕ → ℕ
  /-- the object that the tree has looked up last, with a reference to it -/
  atObj : ℕ → Option ℕ := fun _ => none
  atPgmap : ℕ → Pagemap
  koRef : ℕ → ℕ
  /-- history: the calls of `at_invalidate_addrmap` -/
  calls : List (ℕ × ℕ) := []

namespace Maps

def read (s : Maps) : Option ℕ → Option ℕ
  | none => s.lhFirst
  | some am => s.leNext am

def write (s : Maps) (v p : Option ℕ) : Maps :=
  { s with
    lhFirst := if p = none then v else s.lhFirst
    leNext := fun am => if p = some am then v else s.leNext am }

def remove (am : ℕ) (s : Maps) : Maps :=
  let s := { s with
    lePrev := match s.leNext am with
      | some n => update s.lePrev n (s.lePrev am)
      | none => s.lePrev }
  s.write (s.leNext am) (s.lePrev am)

/-- `kobject_decref` asserts that there is a reference. -/
def kobjCacheFlush (at' : ℕ) (s : Maps) : Option Maps :=
  match s.atObj at' with
  | none => some s
  | some ko =>
    if s.koRef ko = 0 then none
    else some { s with
      koRef := update s.koRef ko (s.koRef ko - 1)
      atObj := update s.atObj at' none }

/-- `page_map_invalidate` asserts that the range is the user's. -/
def atInvalidateRange (at' first last : ℕ) (s : Maps) : Option Maps :=
  if last < ulim then
    some { s with atPgmap := update s.atPgmap at' ((s.atPgmap at').invalidate first last) }
  else none

end Maps

variable (m : Fields)

/-- Whether `at_tlbflush_others` returns. For an interior tree it waits for the lock of the tree's
list, and asserts that the mappings there belong to roots. -/
def atTlbflushOthers (at' : ℕ) : Bool :=
  !m.atInterior at' ||
    m.owner != some at' && (m.atMapList at').all fun am => !m.atInterior (m.amParent am)

def atInvalidateAddrmap (at' am : ℕ) (s : Maps) : Option Maps := do
  let s ← { s with calls := s.calls ++ [(at', am)] }.kobjCacheFlush at'
  if s.amKobj am ≠ 0 then
    if atTlbflushOthers m at' then
      let s ← s.atInvalidateRange at' (m.amVaFirst am) (m.amVaLast am)
      some { s with amKobj := update s.amKobj am 0 }
    else none
  else some s

/-- The loop, over the mappings that `sel` selects. A mapping without an object fails the
assertion. There is no result where the loop does not come to its end. -/
def amlLoop (sel : ℕ → Bool) : ℕ → Maps → Option ℕ → Option ℕ → Option Maps
  | 0, _, _, _ => none
  | _ + 1, s, _, none => some s
  | fuel + 1, s, prev, some am =>
    if s.amKobj am = 0 then none
    else if sel am then do
      let s ← atInvalidateAddrmap m (m.amParent am) am (s.remove am)
      amlLoop sel fuel s prev (s.read prev)
    else amlLoop sel fuel s (some am) (s.leNext am)

def amlInvalidate (sh fuel : ℕ) (s : Maps) : Option Maps :=
  amlLoop m (fun am => sh = 0 || sh = m.amSh am) fuel s none s.lhFirst

def amlScopeLoop (sh scopePs : ℕ) : ℕ → Maps → Option ℕ → Option ℕ → Option Maps
  | 0, _, _, _ => none
  | _ + 1, s, _, none => some s
  | fuel + 1, s, prev, some am =>
    if s.amKobj am = 0 then none
    else if sh = m.amSh am then
      if scopePs = m.amPs am then do
        let s ← atInvalidateAddrmap m (m.amParent am) am (s.remove am)
        amlScopeLoop sh scopePs fuel s prev (s.read prev)
      else
        -- a mapping of another processor is skipped
        amlScopeLoop sh scopePs fuel s (some am) (s.read (some am))
    else amlScopeLoop sh scopePs fuel s (some am) (s.leNext am)

def amlScope (sh scopePs fuel : ℕ) (s : Maps) : Option Maps :=
  amlScopeLoop m sh scopePs fuel s none s.lhFirst

lemma amlScopeLoop_eq (sh ps fuel : ℕ) (s : Maps) (prev am : Option ℕ) :
    amlScopeLoop m sh ps fuel s prev am =
      amlLoop m (fun am => sh = m.amSh am && ps = m.amPs am) fuel s prev am := by
  induction fuel generalizing s prev am with
  | zero => rfl
  | succ fuel ih =>
    cases am with
    | none => rfl
    | some am =>
      simp only [amlScopeLoop, amlLoop, ih]
      by_cases hsh : sh = m.amSh am <;> by_cases hps : ps = m.amPs am <;>
        simp [hsh, hps, Maps.read]

/-! ### Links -/

namespace Maps

variable {s s' : Maps} {a : ℕ} {p : Option ℕ} {l : List ℕ}

/-- From `p` on the links go through `l`, forwards and backwards. -/
def Chain (s : Maps) : Option ℕ → List ℕ → Prop
  | p, [] => s.read p = none
  | p, a :: l => s.read p = some a ∧ s.lePrev a = p ∧ Chain s (some a) l

lemma Chain.read (h : s.Chain p l) : s.read p = l.head? := by
  cases l with
  | nil => exact h
  | cons a l => exact h.1

lemma Chain.frame (hread : s'.read p = s.read p)
    (hl : ∀ a ∈ l, s'.leNext a = s.leNext a ∧ s'.lePrev a = s.lePrev a) (h : s.Chain p l) :
    s'.Chain p l := by
  induction l generalizing p with
  | nil => exact hread.trans h
  | cons a l ih =>
    have ha := hl a List.mem_cons_self
    exact ⟨hread.trans h.1, ha.2.trans h.2.1,
      ih ha.1 (fun b hb => hl b (List.mem_cons_of_mem a hb)) h.2.2⟩

lemma Chain.remove_eq (h : s.Chain p (a :: l)) (ha : a ∉ l) :
    (∀ q, (s.remove a).read q = if p = q then l.head? else s.read q) ∧
      ∀ b, (s.remove a).lePrev b = if l.head? = some b then p else s.lePrev b := by
  obtain ⟨-, rfl, hl⟩ := h
  have hnext : s.leNext a = l.head? := hl.read
  have hself : l.head? ≠ some a := fun h => ha (List.mem_of_head? h)
  refine ⟨fun q => ?_, fun b => ?_⟩
  · cases l <;> cases q <;> simp_all [remove, write, Maps.read, update_of_ne]
  · cases l <;> simp_all [remove, write, update_apply, @eq_comm ℕ b]

lemma Chain.remove (h : s.Chain p (a :: l)) (hn : (a :: l).Nodup)
    (hp : ∀ b ∈ a :: l, p ≠ some b) : (s.remove a).Chain p l := by
  obtain ⟨ha, hl⟩ := List.nodup_cons.1 hn
  obtain ⟨hread, hprev⟩ := h.remove_eq ha
  cases l with
  | nil => exact (hread p).trans (if_pos rfl)
  | cons b l =>
    have hnext : ∀ c ∈ b :: l, (s.remove a).leNext c = s.leNext c := fun c hc =>
      (hread (some c)).trans (if_neg (hp c (List.mem_cons_of_mem a hc)))
    refine ⟨(hread p).trans (if_pos rfl), (hprev b).trans (if_pos rfl),
      .frame (hnext b List.mem_cons_self) (fun c hc => ⟨?_, ?_⟩) h.2.2.2.2⟩
    · exact hnext c (List.mem_cons_of_mem b hc)
    · rw [hprev, if_neg]
      rintro ⟨⟩
      exact (List.nodup_cons.1 hl).1 hc

/-- Each tree has a reference of its own to the object it has looked up. -/
def Counted (s : Maps) : Prop :=
  ∀ ko (ts : List ℕ), ts.Nodup → (∀ t ∈ ts, s.atObj t = some ko) → ts.length ≤ s.koRef ko

lemma Counted.kobjCacheFlush (h : s.Counted) (at' : ℕ) :
    ∃ refs, s.kobjCacheFlush at' =
        some { s with koRef := refs, atObj := update s.atObj at' none } ∧
      Counted { s with koRef := refs, atObj := update s.atObj at' none } := by
  rw [Maps.kobjCacheFlush]
  cases hobj : s.atObj at' with
  | none =>
    have hsame : update s.atObj at' none = s.atObj := hobj ▸ update_eq_self at' s.atObj
    rw [hsame]
    exact ⟨_, rfl, h⟩
  | some ko =>
    have hpos : 0 < s.koRef ko := h ko [at'] (List.nodup_singleton at') (by simpa using hobj)
    refine ⟨_, if_neg hpos.ne', fun x ts hn ht => ?_⟩
    have hne : at' ∉ ts := fun hmem => by simpa using ht at' hmem
    have hold : ∀ t ∈ ts, s.atObj t = some x := fun t hmem => by
      have hother : t ≠ at' := fun heq => hne (heq ▸ hmem)
      simpa [hother] using ht t hmem
    dsimp only
    by_cases hx : x = ko
    · have hle := h ko (at' :: ts) (List.nodup_cons.mpr ⟨hne, hn⟩) (by simpa [hobj, hx] using hold)
      rw [hx, update_self]
      exact Nat.le_pred_of_lt hle
    · rw [update_of_ne hx]
      exact h x ts hn hold

end Maps

open Maps

/-- What `at_invalidate_addrmap` needs of a mapping: it ends below `ULIM`, and if its tree is an
interior one, then that tree's list is another one and has mappings of roots only. -/
def Fields.Clear (a : ℕ) : Prop :=
  m.amVaLast a < ulim ∧ (m.atInterior (m.amParent a) = true →
    m.owner ≠ some (m.amParent a) ∧
      ∀ b ∈ m.atMapList (m.amParent a), m.atInterior (m.amParent b) = false)

instance : DecidablePred m.Clear := fun a => by
  unfold Fields.Clear
  infer_instance

variable {m} {s s' : Maps} {a : ℕ} {p : Option ℕ} {l : List ℕ}

lemma atTlbflushOthers_iff : atTlbflushOthers m (m.amParent a) = true ↔
    (m.atInterior (m.amParent a) = true → m.owner ≠ some (m.amParent a) ∧
      ∀ b ∈ m.atMapList (m.amParent a), m.atInterior (m.amParent b) = false) := by
  cases h : m.atInterior (m.amParent a) <;> simp [atTlbflushOthers, h]

/-- What the invalidation of `a` does. -/
structure Invalidated (m : Fields) (a : ℕ) (s s' : Maps) : Prop where
  read : s'.read = s.read
  lePrev : s'.lePrev = s.lePrev
  amKobj : s'.amKobj = update s.amKobj a 0
  atObj : s'.atObj = update s.atObj (m.amParent a) none
  atPgmap : s'.atPgmap = update s.atPgmap (m.amParent a)
    ((s.atPgmap (m.amParent a)).invalidate (m.amVaFirst a) (m.amVaLast a))
  calls : s'.calls = s.calls ++ [(m.amParent a, a)]

lemma atInvalidateAddrmap_of_clear (hc : s.Counted) (hk : s.amKobj a ≠ 0) (ha : m.Clear a) :
    ∃ s', atInvalidateAddrmap m (m.amParent a) a s = some s' ∧ s'.Counted ∧
      Invalidated m a s s' := by
  obtain ⟨refs, hflush, hc'⟩ :=
    Counted.kobjCacheFlush (s := { s with calls := s.calls ++ [(m.amParent a, a)] }) hc
      (m.amParent a)
  have htlb := atTlbflushOthers_iff.mpr ha.2
  simp only [atInvalidateAddrmap, hflush, Option.bind_eq_bind, Option.bind_some, if_pos hk, htlb,
    if_true, atInvalidateRange, if_pos ha.1]
  exact ⟨_, rfl, hc', funext fun q => by cases q <;> rfl, rfl, rfl, rfl, rfl, rfl⟩

lemma atInvalidateAddrmap_of_not_clear (hc : s.Counted) (hk : s.amKobj a ≠ 0) (ha : ¬ m.Clear a) :
    atInvalidateAddrmap m (m.amParent a) a s = none := by
  obtain ⟨refs, hflush, -⟩ :=
    Counted.kobjCacheFlush (s := { s with calls := s.calls ++ [(m.amParent a, a)] }) hc
      (m.amParent a)
  by_cases hlast : m.amVaLast a < ulim
  · have htlb : atTlbflushOthers m (m.amParent a) = false :=
      Bool.eq_false_iff.mpr fun h => ha ⟨hlast, atTlbflushOthers_iff.mp h⟩
    simp [atInvalidateAddrmap, hflush, hk, htlb]
  · simp [atInvalidateAddrmap, hflush, hk, atInvalidateRange, hlast]

/-- `s'` is `s` without the mappings of `l` that `sel` selects, where `p` leads to `l`. -/
structure Filtered (m : Fields) (sel : ℕ → Bool) (p : Option ℕ) (l : List ℕ) (s s' : Maps) :
    Prop where
  chain : s'.Chain p (l.filter (!sel ·))
  calls : s'.calls = s.calls ++ (l.filter sel).map fun a => (m.amParent a, a)
  kobj : ∀ a, s'.amKobj a = if a ∈ l ∧ sel a then 0 else s.amKobj a
  cache : ∀ t, s'.atObj t = if t ∈ (l.filter sel).map m.amParent then none else s.atObj t
  pgmap : s'.atPgmap = (l.filter sel).foldl (fun pm a => update pm (m.amParent a)
    ((pm (m.amParent a)).invalidate (m.amVaFirst a) (m.amVaLast a))) s.atPgmap
  others : ∀ q, q ≠ p → (∀ a ∈ l, q ≠ some a) → s'.read q = s.read q
  backs : ∀ a ∉ l, s'.lePrev a = s.lePrev a

/-- A selected mapping in front is taken out first. -/
lemma Filtered.cons_selected {sel : ℕ → Bool} (hsel : sel a = true) (ha : a ∉ l)
    (hchain : s.Chain p (a :: l)) (hi : Invalidated m a (s.remove a) s')
    {t : Maps} (h : Filtered m sel p l s' t) : Filtered m sel p (a :: l) s t := by
  obtain ⟨hread, hprev⟩ := hchain.remove_eq ha
  have hfilter : (a :: l).filter sel = a :: l.filter sel := List.filter_cons_of_pos hsel
  refine ⟨?_, h.calls.trans ?_, fun b => (h.kobj b).trans ?_, fun x => (h.cache x).trans ?_,
    h.pgmap.trans ?_, fun q hq hl => ?_, fun b hb => ?_⟩
  · rw [List.filter_cons_of_neg (by simp [hsel])]
    exact h.chain
  · rw [hi.calls, hfilter, List.map_cons, List.append_assoc]
    rfl
  · rw [hi.amKobj]
    by_cases hb : b = a <;> simp [hb, hsel, ha]
    rfl
  · rw [hi.atObj, hfilter, List.map_cons]
    by_cases hx : x = m.amParent a
    · simp [hx]
    · rw [update_of_ne hx]
      exact if_congr (by simp [hx]) rfl rfl
  · rw [hi.atPgmap, hfilter]
    rfl
  · rw [h.others q hq fun b hb => hl b (List.mem_cons_of_mem a hb), hi.read]
    exact (hread q).trans (if_neg hq.symm)
  · rw [h.backs b fun hl => hb (List.mem_cons_of_mem a hl), hi.lePrev]
    exact (hprev b).trans (if_neg fun h => hb (by simp [List.mem_of_head? h]))

/-- The loop goes on behind a mapping that is not selected. -/
lemma Filtered.cons_skipped {sel : ℕ → Bool} (hsel : sel a = false) (ha : a ∉ l)
    (hchain : s.Chain p (a :: l)) (hp : ∀ b ∈ a :: l, p ≠ some b)
    (h : Filtered m sel (some a) l s s') : Filtered m sel p (a :: l) s s' := by
  have hfilter : (a :: l).filter sel = l.filter sel := List.filter_cons_of_neg (by simp [hsel])
  refine ⟨?_, by rw [hfilter, h.calls], fun b => (h.kobj b).trans ?_, hfilter ▸ h.cache,
    by rw [hfilter, h.pgmap], fun q hq hl => ?_, fun b hb => ?_⟩
  · rw [List.filter_cons_of_pos (by simp [hsel])]
    exact ⟨(h.others p (hp a List.mem_cons_self) fun b hb =>
      hp b (List.mem_cons_of_mem a hb)).trans hchain.1, (h.backs a ha).trans hchain.2.1, h.chain⟩
  · by_cases hb : b = a <;> simp [hb, hsel, ha]
  · exact h.others q (hl a List.mem_cons_self) fun b hb => hl b (List.mem_cons_of_mem a hb)
  · exact h.backs b fun hl => hb (List.mem_cons_of_mem a hl)

lemma amlLoop_cases (sel : ℕ → Bool) {fuel : ℕ} (h : s.Chain p l) (hn : l.Nodup)
    (hp : ∀ a ∈ l, p ≠ some a) (hk : ∀ a ∈ l, s.amKobj a ≠ 0) (hc : s.Counted)
    (hfuel : l.length < fuel) :
    (∃ s', amlLoop m sel fuel s p l.head? = some s' ∧ Filtered m sel p l s s') ∧
        (∀ a ∈ l, sel a = true → m.Clear a) ∨
      amlLoop m sel fuel s p l.head? = none ∧ ¬ ∀ a ∈ l, sel a = true → m.Clear a := by
  induction l generalizing s p fuel with
  | nil =>
    obtain ⟨fuel, rfl⟩ := Nat.exists_eq_add_of_lt hfuel
    exact .inl ⟨⟨s, rfl, h, by simp, by simp, by simp, rfl, fun _ _ _ => rfl, fun _ _ => rfl⟩,
      by simp⟩
  | cons a l ih =>
    obtain ⟨fuel, rfl⟩ := Nat.exists_eq_add_of_lt (Nat.zero_lt_of_lt hfuel)
    obtain ⟨ha, hnl⟩ := List.nodup_cons.1 hn
    have hka : s.amKobj a ≠ 0 := hk a List.mem_cons_self
    have hlen : l.length < 0 + fuel := by simpa using hfuel
    simp only [List.head?_cons, amlLoop, hka, if_false, List.forall_mem_cons]
    cases hsel : sel a with
    | true =>
      simp only [if_true, forall_const]
      by_cases hclear : m.Clear a
      · obtain ⟨s1, hs1, hc1, hi⟩ := atInvalidateAddrmap_of_clear (s := s.remove a) hc hka hclear
        have hchain : s1.Chain p l := .frame (congrFun hi.read p)
          (fun b _ => ⟨congrFun hi.read (some b), congrFun hi.lePrev b⟩) (h.remove hn hp)
        have hk1 : ∀ b ∈ l, s1.amKobj b ≠ 0 := fun b hb => by
          rw [hi.amKobj, update_of_ne fun heq : b = a => ha (heq ▸ hb)]
          exact hk b (List.mem_cons_of_mem a hb)
        simp only [hs1, hclear, true_and, Option.bind_eq_bind, Option.bind_some, hchain.read]
        refine (ih hchain hnl (fun b hb => hp b (List.mem_cons_of_mem a hb)) hk1 hc1
          hlen).imp_left ?_
        rintro ⟨⟨s', hs', hf⟩, hall⟩
        exact ⟨⟨s', hs', hf.cons_selected hsel ha h hi⟩, hall⟩
      · rw [atInvalidateAddrmap_of_not_clear (s := s.remove a) hc hka hclear]
        exact .inr ⟨rfl, fun hall => hclear hall.1⟩
    | false =>
      have hnext : s.leNext a = l.head? := h.2.2.read
      simp only [Bool.false_eq_true, if_false, false_imp_iff, true_and, hnext]
      refine (ih h.2.2 hnl (fun b hb => by rintro ⟨⟩; exact ha hb)
        (fun b hb => hk b (List.mem_cons_of_mem a hb)) hc hlen).imp_left ?_
      rintro ⟨⟨s', hs', hf⟩, hall⟩
      exact ⟨⟨s', hs', hf.cons_skipped hsel ha h hp⟩, hall⟩

/-- A list of mappings, each once and with its object. -/
structure Listed (s : Maps) (l : List ℕ) : Prop where
  chain : s.Chain none l
  nodup : l.Nodup
  kobj : ∀ a ∈ l, s.amKobj a ≠ 0
  counted : s.Counted

lemma amlLoop_filters_iff (sel : ℕ → Bool) {fuel : ℕ} (h : Listed s l) (hfuel : l.length < fuel) :
    (∃ s', amlLoop m sel fuel s none s.lhFirst = some s' ∧ Filtered m sel none l s s') ↔
      ∀ a ∈ l, sel a = true → m.Clear a := by
  have hfirst : s.lhFirst = l.head? := h.chain.read
  rw [hfirst]
  obtain ⟨hs, hall⟩ | ⟨hnone, hall⟩ :=
    amlLoop_cases (m := m) sel h.chain h.nodup nofun h.kobj h.counted hfuel
  · exact iff_of_true hs hall
  · exact iff_of_false (fun ⟨s', hs', _⟩ => by simp [hnone] at hs') hall

/-- Three mappings with their objects; tree 7 has looked up object 9. -/
def threeMaps : Maps where
  lhFirst := some 1
  leNext a := if a = 3 then none else some (a + 1)
  lePrev a := if a = 1 then none else some (a - 1)
  amKobj _ := 9
  atObj t := if t = 7 then some 9 else none
  atPgmap t := { page := t, int := t = 8 }
  koRef _ := 1

/-- The first and the last mapping are of share 5. The last one belongs to the interior tree 8,
which tree 7 maps by mapping 4. -/
def threeFields : Fields where
  amSh a := if a = 2 then 6 else 5
  amPs _ := 6
  amParent a := if a = 3 then 8 else 7
  amVaFirst _ := 0x1000
  amVaLast _ := 0x3000
  atInterior t := t = 8
  atMapList t := if t = 8 then [4] else []

lemma listed_threeMaps : Listed threeMaps [1, 2, 3] where
  chain := ⟨rfl, rfl, rfl, rfl, rfl, rfl, rfl⟩
  nodup := by decide
  kobj := by decide
  counted ko ts hn ht := by
    have hall : ∀ t ∈ ts, t = 7 := fun t hmem => by
      by_contra hne
      simpa [threeMaps, hne] using ht t hmem
    rw [List.eq_replicate_of_mem hall, List.nodup_replicate] at hn
    exact hn

end Corey.Kern.MappingList
