import Corey.Lib.Threads

/-!
The queue lock of the kernel (`mcs_lock` and `mcs_unlock` in `kern/arch/amd64/mcs.h`).

Every CPU has a node. A CPU that wants the lock puts its node at the end of the queue with an
exchange, then links it to the node before, and spins on its own node until the CPU before hands
the lock over. Between the exchange and the link the queue cannot be followed through the nodes.
-/

namespace Corey.Sync.Mcs

open Function Corey.Threads List

variable {C : Type}

/-! ### The code -/

/-- `struct mcslock`, with the nodes of the CPUs. A node is named by its CPU. -/
structure Mcslock (C : Type) where
  v : Option C := none
  next : C → Option C := fun _ => none
  locked : C → Bool := fun _ => false

/-- The next access to memory of a CPU. -/
inductive Pc (C : Type)
  /-- not in a call, and without the lock -/
  | out
  /-- `mcs_lock`: the own `next` is cleared -/
  | clearNext
  /-- `mcs_lock`: the exchange -/
  | swap
  /-- `mcs_lock`: the own `locked` is set -/
  | setLocked (predecessor : C)
  /-- `mcs_lock`: the `next` of the predecessor is set -/
  | link (predecessor : C)
  /-- `mcs_lock`: the loop until the own `locked` is cleared -/
  | spin
  /-- between `mcs_lock` and `mcs_unlock` -/
  | held
  /-- `mcs_unlock`: the own `next` is read -/
  | checkNext
  /-- `mcs_unlock`: the compare-and-swap -/
  | cas
  /-- `mcs_unlock`: the loop until there is a `next` -/
  | waitNext
  /-- `mcs_unlock`: the own `next` is read once more -/
  | readNext
  /-- `mcs_unlock`: the `locked` of the next node is cleared -/
  | handOver (next : C)

def act [DecidableEq C] (c : C) (m : Mcslock C) : Pc C → Option (Mcslock C × Pc C)
  | .out => some (m, .clearNext)
  | .clearNext => some ({ m with next := update m.next c none }, .swap)
  | .swap =>
    some ({ m with v := some c }, match m.v with | none => .held | some p => .setLocked p)
  | .setLocked p => some ({ m with locked := update m.locked c true }, .link p)
  | .link p => some ({ m with next := update m.next p (some c) }, .spin)
  | .spin => some (m, if m.locked c then .spin else .held)
  | .held => some (m, .checkNext)
  | .checkNext => some (m, if m.next c = none then .cas else .readNext)
  | .cas => if m.v = some c then some ({ m with v := none }, .out) else some (m, .waitNext)
  | .waitNext => some (m, if m.next c = none then .waitNext else .readNext)
  | .readNext => (m.next c).map fun n => (m, .handOver n)
  | .handOver n => some ({ m with locked := update m.locked n false }, .out)

/-- The CPUs with a lock after `mcs_init`. -/
def mcslock (C : Type) [DecidableEq C] : System (Threads C (Mcslock C) (Pc C)) (C × Unit) :=
  interleaving (fun s => s.mem = {} ∧ ∀ c, s.loc c = .out) fun c _ => act c

/-! ### The queue -/

variable {s : Threads C (Mcslock C) (Pc C)} {m m' : Mcslock C} {l l' : Pc C} {c d p : C}
  {Q : List C} {i j : ℕ}

def Pc.Queued : Pc C → Prop
  | .out | .clearNext | .swap => False
  | _ => True

/-- The CPU has the lock, or is about to hand it over. -/
def Pc.Has : Pc C → Prop
  | .held | .checkNext | .cas | .waitNext | .readNext | .handOver _ => True
  | _ => False

/-- `c` stands behind `p` in the queue. -/
def Linked (m : Mcslock C) (p c : C) : Pc C → Prop
  | .setLocked q => q = p ∧ m.next p = none
  | .link q => q = p ∧ m.next p = none ∧ m.locked c = true
  | .spin => m.next p = some c ∧ m.locked c = true
  | _ => False

/-- `c` is at the front of the queue. -/
def Front (m : Mcslock C) (c : C) : Pc C → Prop
  | .spin => m.locked c = false
  | .held | .checkNext | .cas => True
  | .waitNext => m.v ≠ some c
  | .readNext => m.next c ≠ none
  | .handOver n => m.next c = some n
  | _ => False

/-- The CPUs of `Q` are waiting in this order, and the first of them has the lock. -/
structure Queue (Q : List C) (s : Threads C (Mcslock C) (Pc C)) : Prop where
  nodup : Q.Nodup
  mem : ∀ c, c ∈ Q ↔ (s.loc c).Queued
  tail : s.mem.v = Q.getLast?
  last : ∀ c, Q.getLast? = some c → s.mem.next c = none
  chain : ∀ i p c, Q[i]? = some p → Q[i + 1]? = some c → Linked s.mem p c (s.loc c)
  front : ∀ c, Q.head? = some c → Front s.mem c (s.loc c)
  /-- a node that is about to be put into the queue has no next one -/
  fresh : ∀ c, s.loc c = .swap → s.mem.next c = none

lemma Linked.congr (h : Linked m p c l) (hn : m'.next p = m.next p)
    (hl : m'.locked c = m.locked c) : Linked m' p c l := by
  cases l with
  | setLocked q => exact ⟨h.1, hn.trans h.2⟩
  | link q => exact ⟨h.1, hn.trans h.2.1, hl.trans h.2.2⟩
  | spin => exact ⟨hn.trans h.1, hl.trans h.2⟩
  | _ => exact h

lemma Front.congr (h : Front m c l) (hv : m'.v = some c → m.v = some c)
    (hn : m'.next c = m.next c) (hl : m'.locked c = m.locked c) : Front m' c l := by
  cases l with
  | spin => exact hl.trans h
  | waitNext => exact fun heq => h (hv heq)
  | readNext => exact fun heq => h (hn.symm.trans heq)
  | handOver n => exact hn.trans h
  | _ => exact h

lemma Pc.Has.queued (h : l.Has) : l.Queued := by
  cases l <;> trivial

lemma Pc.Has.not_linked (h : l.Has) : ¬ Linked m p c l := by
  cases l <;> first | exact id | exact h.elim

lemma exists_behind (hc : c ∈ Q) (hne : Q.head? ≠ some c) :
    ∃ i p, Q[i]? = some p ∧ Q[i + 1]? = some c := by
  obtain ⟨i, hi⟩ := List.mem_iff_getElem?.mp hc
  cases i with
  | zero =>
    rw [List.head?_eq_getElem?] at hne
    exact absurd hi hne
  | succ i =>
    have hlt := (List.getElem?_eq_some_iff.mp hi).1
    exact ⟨i, _, List.getElem?_eq_getElem (by omega), hi⟩

lemma Queue.front_of_has (h : Queue Q s) (hc : (s.loc c).Has) : Q.head? = some c := by
  by_contra hne
  obtain ⟨i, p, hp, hi⟩ := exists_behind ((h.mem c).mpr hc.queued) hne
  exact hc.not_linked (h.chain i p c hp hi)

lemma Queue.index (h : Queue Q s) (hi : Q[i]? = some c) (hj : Q[j]? = some c) : i = j :=
  (List.getElem?_inj (List.getElem?_eq_some_iff.mp hi).1 h.nodup).mp (hi.trans hj.symm)

lemma getLast?_ne (hp : Q[i]? = some p) (hlast : Q.getLast? = some p) (hnodup : Q.Nodup) :
    Q[i + 1]? = none := by
  rw [List.getLast?_eq_getElem?] at hlast
  have hi := (List.getElem?_eq_some_iff.mp hp).1
  have := (List.getElem?_inj hi hnodup).mp (hp.trans hlast.symm)
  rw [List.getElem?_eq_none_iff]
  omega

/-! ### The steps -/

variable [DecidableEq C]

lemma Queue.quiet (h : Queue Q s) (hq : l.Queued ↔ (s.loc c).Queued) (hswap : l ≠ .swap)
    (hlinked : ∀ p, Linked s.mem p c (s.loc c) → Linked s.mem p c l)
    (hfront : Q.head? = some c → Front s.mem c l) : Queue Q (s.set c s.mem l) where
  nodup := h.nodup
  mem d := by
    rw [h.mem, set_loc_eq]
    split_ifs with hd
    · rw [hd, hq]
    · rfl
  tail := h.tail
  last := h.last
  chain i p d hp hd := by
    rw [set_loc_eq]
    split_ifs with hdc
    · subst hdc
      exact hlinked p (h.chain i p d hp hd)
    · exact h.chain i p d hp hd
  front d hd := by
    rw [set_loc_eq]
    split_ifs with hdc
    · subst hdc
      exact hfront hd
    · exact h.front d hd
  fresh d hd := by
    rw [set_loc_eq] at hd
    split_ifs at hd with hdc
    · exact absurd hd hswap
    · exact h.fresh d hd

lemma Queue.keep (h : Queue Q s) (hc : (s.loc c).Has) (hl : l.Has) (hfront : Front s.mem c l) :
    Queue Q (s.set c s.mem l) := by
  refine h.quiet (iff_of_true hl.queued hc.queued) ?_ (fun p hp => absurd hp hc.not_linked)
    fun _ => hfront
  rintro rfl
  exact hl

lemma Queue.advance (h : Queue Q s) (hfront : ¬ Front s.mem c (s.loc c)) (hc : (s.loc c).Queued)
    (hl : l.Queued) (hv : m.v = s.mem.v)
    (hlast : ∀ d, Q.getLast? = some d → m.next d = none)
    (hbehind : ∀ i p, Q[i]? = some p → Q[i + 1]? = some c → Linked m p c l)
    (hothers : ∀ i p d, d ≠ c → Q[i]? = some p → Q[i + 1]? = some d → m.next p = s.mem.next p)
    (hlocked : ∀ d, d ≠ c → m.locked d = s.mem.locked d)
    (hfirst : ∀ d, d ≠ c → Q.head? = some d → Front m d (s.loc d))
    (hfresh : ∀ d, d ∉ Q → m.next d = s.mem.next d) : Queue Q (s.set c m l) where
  nodup := h.nodup
  mem d := by
    rw [h.mem, set_loc_eq]
    split_ifs with hd
    · rw [hd]
      exact iff_of_true hc hl
    · rfl
  tail := hv.trans h.tail
  last := hlast
  chain i p d hp hd := by
    rw [set_loc_eq]
    split_ifs with hdc
    · subst hdc
      exact hbehind i p hp hd
    · exact (h.chain i p d hp hd).congr (hothers i p d hdc hp hd) (hlocked d hdc)
  front d hd := by
    have hdc : d ≠ c := by
      rintro rfl
      exact hfront (h.front d hd)
    rw [set_loc_of_ne hdc]
    exact hfirst d hdc hd
  fresh d hd := by
    rw [set_loc_eq] at hd
    split_ifs at hd with hdc
    · rw [hd] at hl
      exact hl.elim
    · have hnot : d ∉ Q := fun hmem => by
        have := (h.mem d).mp hmem
        rw [hd] at this
        exact this
      rw [set_mem, hfresh d hnot]
      exact h.fresh d hd

lemma Queue.clearNext_step (h : Queue Q s) (hc : s.loc c = .clearNext) :
    Queue Q (s.set c { s.mem with next := update s.mem.next c none } .swap) := by
  have hout : c ∉ Q := fun hmem => by
    have := (h.mem c).mp hmem
    rw [hc] at this
    exact this
  have hne : ∀ d ∈ Q, d ≠ c := fun d hd heq => hout (heq ▸ hd)
  have hnext : ∀ d ∈ Q, update s.mem.next c none d = s.mem.next d := fun d hd =>
    update_of_ne (hne d hd) _ _
  refine ⟨h.nodup, fun d => ?_, h.tail, fun d hd => ?_, fun i p d hp hd => ?_, fun d hd => ?_,
    fun d hd => ?_⟩
  · rw [h.mem, set_loc_eq]
    split_ifs with hdc
    · rw [hdc, hc]
      rfl
    · rfl
  · exact (hnext d (mem_of_getLast? hd)).trans (h.last d hd)
  · have hp' := mem_of_getElem? hp
    rw [set_loc_of_ne (hne d (mem_of_getElem? hd))]
    exact (h.chain i p d hp hd).congr (hnext p hp') rfl
  · have hd' := mem_of_mem_head? hd
    rw [set_loc_of_ne (hne d hd')]
    exact (h.front d hd).congr id (hnext d hd') rfl
  · by_cases hdc : d = c
    · rw [hdc]
      exact update_self _ _ _
    · rw [set_loc_of_ne hdc] at hd
      exact (update_of_ne hdc _ _).trans (h.fresh d hd)

lemma Queue.setLocked_step (h : Queue Q s) (hc : s.loc c = .setLocked p) :
    Queue Q (s.set c { s.mem with locked := update s.mem.locked c true } (.link p)) := by
  refine h.advance (by rw [hc]; exact id) (by rw [hc]; trivial) trivial rfl h.last
    (fun i q hq hi => ?_) (fun _ _ _ _ _ _ => rfl) (fun d hd => update_of_ne hd _ _)
    (fun d hd hfront => ?_) fun _ _ => rfl
  · have hlinked := h.chain i q c hq hi
    rw [hc] at hlinked
    exact ⟨hlinked.1, hlinked.2, update_self _ _ _⟩
  · exact (h.front d hfront).congr id rfl (update_of_ne hd _ _)

lemma Queue.link_step (h : Queue Q s) (hc : s.loc c = .link p) :
    Queue Q (s.set c { s.mem with next := update s.mem.next p (some c) } .spin) := by
  have hmem : c ∈ Q := by
    rw [h.mem, hc]
    trivial
  have hnot : ¬ Front s.mem c (s.loc c) := by
    rw [hc]
    exact id
  obtain ⟨i, q, hq, hi⟩ := exists_behind hmem fun hhead => hnot (h.front c hhead)
  have hlinked := h.chain i q c hq hi
  rw [hc] at hlinked
  obtain ⟨rfl, hnone, hlocked⟩ := hlinked
  have hone : ∀ {j d}, Q[j]? = some p → Q[j + 1]? = some d → d = c := fun {j d} hj hd => by
    rw [h.index hj hq] at hd
    exact Option.some.inj (hd.symm.trans hi)
  refine h.advance hnot (by rw [hc]; trivial) trivial rfl (fun d hd => ?_) (fun j q hq' hj => ?_)
    (fun j q d hd hq' hj => ?_) (fun _ _ => rfl) (fun d hd hfront => ?_) fun d hd => ?_
  · have hdp : d ≠ p := by
      rintro rfl
      exact absurd (hi.symm.trans (getLast?_ne hq hd h.nodup)) nofun
    exact (update_of_ne hdp _ _).trans (h.last d hd)
  · have hji := h.index hj hi
    obtain rfl : j = i := by omega
    obtain rfl := Option.some.inj (hq.symm.trans hq')
    exact ⟨update_self _ _ _, hlocked⟩
  · have hqp : q ≠ p := by
      rintro rfl
      exact hd (hone hq' hj)
    exact update_of_ne hqp _ _
  · have hold := h.front d hfront
    by_cases hdp : d = p
    · subst hdp
      cases hl : s.loc d <;> rw [hl] at hold
      case readNext => exact absurd hnone hold
      case handOver n => exact absurd (hnone.symm.trans hold) nofun
      all_goals exact hold
    · exact hold.congr id (update_of_ne hdp _ _) rfl
  · have hdp : d ≠ p := by
      rintro rfl
      exact hd (mem_of_getElem? hq)
    exact update_of_ne hdp _ _

lemma Queue.swap_step (h : Queue Q s) (hc : s.loc c = .swap) :
    Queue (Q ++ [c]) (s.set c { s.mem with v := some c }
      (match s.mem.v with | none => .held | some p => .setLocked p)) := by
  have hout : c ∉ Q := fun hmem => by
    have := (h.mem c).mp hmem
    rw [hc] at this
    exact this
  have hne : ∀ d ∈ Q, d ≠ c := fun d hd heq => hout (heq ▸ hd)
  refine ⟨?_, fun d => ?_, List.getLast?_concat.symm, fun d hd => ?_, fun i p d hp hd => ?_,
    fun d hd => ?_, fun d hd => ?_⟩
  · rw [List.nodup_append]
    exact ⟨h.nodup, List.nodup_singleton c, fun a ha b hb => (List.mem_singleton.mp hb) ▸ hne a ha⟩
  · rw [List.mem_append, List.mem_singleton, h.mem, set_loc_eq]
    split_ifs with hdc
    · refine iff_of_true (.inr hdc) ?_
      cases s.mem.v <;> trivial
    · simp only [hdc, or_false]
  · rw [List.getLast?_concat, Option.some.injEq] at hd
    subst hd
    exact h.fresh c hc
  · rcases Nat.lt_or_ge (i + 1) Q.length with hlt | hge
    · -- two CPUs that were there before
      rw [List.getElem?_append_left hlt] at hd
      rw [List.getElem?_append_left (by omega)] at hp
      rw [set_loc_of_ne (hne d (List.mem_of_getElem? hd))]
      exact (h.chain i p d hp hd).congr rfl rfl
    · -- the last one and the new one
      rw [List.getElem?_append_right hge] at hd
      have hlen : i + 1 = Q.length := by
        have := (List.getElem?_eq_some_iff.mp hd).1
        rw [List.length_singleton] at this
        omega
      rw [hlen, Nat.sub_self, List.getElem?_cons_zero, Option.some.injEq] at hd
      rw [List.getElem?_append_left (by omega)] at hp
      have hlast : Q.getLast? = some p := by
        rw [List.getLast?_eq_getElem?, ← hlen]
        exact hp
      subst hd
      rw [set_loc_self, h.tail, hlast]
      exact ⟨rfl, h.last p hlast⟩
  · cases Q with
    | nil =>
      obtain rfl := Option.some.inj hd
      rw [set_loc_self, h.tail]
      trivial
    | cons q Q =>
      obtain rfl := Option.some.inj hd
      have hqc := hne q List.mem_cons_self
      rw [set_loc_of_ne hqc]
      exact (h.front q rfl).congr (fun heq => absurd (Option.some.inj heq).symm hqc) rfl rfl
  · by_cases hdc : d = c
    · rw [hdc]
      exact h.fresh c hc
    · rw [set_loc_of_ne hdc] at hd
      exact h.fresh d hd

lemma Queue.cas_step (h : Queue Q s) (hc : s.loc c = .cas) (hv : s.mem.v = some c) :
    Queue Q.tail (s.set c { s.mem with v := none } .out) := by
  have hhead : Q.head? = some c := h.front_of_has (by rw [hc]; trivial)
  have hlast := h.tail.symm.trans hv
  have hone : Q = [c] := by
    obtain ⟨Q', rfl⟩ := head?_eq_some_iff.mp hhead
    have hnone := getLast?_ne (i := 0) (by rfl) hlast h.nodup
    rw [getElem?_cons_succ, getElem?_eq_none_iff, Nat.le_zero, length_eq_zero_iff]
      at hnone
    rw [hnone]
  rw [show Q.tail = [] by rw [hone, tail_cons]]
  refine ⟨nodup_nil, fun d => ?_, rfl, nofun, nofun, nofun, fun d hd => ?_⟩
  · rw [set_loc_eq]
    split_ifs with hdc
    · exact iff_of_false not_mem_nil id
    · have hnot : d ∉ Q := by
        rw [hone, mem_singleton]
        exact hdc
      exact iff_of_false not_mem_nil fun hq => hnot ((h.mem d).mpr hq)
  · rw [set_loc_eq] at hd
    split_ifs at hd with hdc
    exact h.fresh d hd

lemma Queue.handOver_step {n : C} (h : Queue Q s) (hc : s.loc c = .handOver n) :
    Queue Q.tail (s.set c { s.mem with locked := update s.mem.locked n false } .out) := by
  have hhead : Q.head? = some c := h.front_of_has (by rw [hc]; trivial)
  have hnext : s.mem.next c = some n := by
    have := h.front c hhead
    rw [hc] at this
    exact this
  obtain ⟨Q', rfl⟩ := head?_eq_some_iff.mp hhead
  -- there is somebody behind, and it is `n`
  obtain ⟨d, Q', rfl⟩ : ∃ d Q'', Q' = d :: Q'' := by
    refine exists_cons_of_ne_nil fun hnil => ?_
    have := h.last c (by rw [hnil]; rfl)
    exact absurd (this.symm.trans hnext) nofun
  have hlinked := h.chain 0 c d rfl rfl
  obtain ⟨hspin, rfl⟩ : s.loc d = .spin ∧ d = n := by
    cases hl : s.loc d <;> rw [hl] at hlinked
    case spin => exact ⟨rfl, Option.some.inj (hlinked.1.symm.trans hnext)⟩
    case setLocked q => exact absurd (hlinked.2.symm.trans hnext) nofun
    case link q => exact absurd (hlinked.2.1.symm.trans hnext) nofun
    all_goals exact hlinked.elim
  have hnodup := nodup_cons.mp h.nodup
  have hne : ∀ e ∈ d :: Q', e ≠ c := fun e he heq => hnodup.1 (heq ▸ he)
  refine ⟨hnodup.2, fun e => ?_, ?_, fun e he => ?_, fun i p e hp he => ?_, fun e he => ?_,
    fun e he => ?_⟩
  · rw [set_loc_eq]
    split_ifs with hec
    · exact iff_of_false (fun he => hne e he hec) id
    · rw [← h.mem]
      exact ⟨mem_cons_of_mem c, fun he => (mem_cons.mp he).resolve_left hec⟩
  · exact h.tail
  · exact h.last e he
  · have hold := h.chain (i + 1) p e hp he
    have hed : e ≠ d := by
      rintro rfl
      have := h.index (i := 1) (j := i + 2) rfl he
      omega
    rw [set_loc_of_ne (hne e (mem_of_getElem? he))]
    exact hold.congr rfl (update_of_ne hed _ _)
  · obtain rfl := Option.some.inj he
    rw [set_loc_of_ne (hne d mem_cons_self), hspin]
    exact update_self _ _ _
  · rw [set_loc_eq] at he
    split_ifs at he with hec
    exact h.fresh e he

/-- The queue after a step that leads `c` from `l` to `l'`. -/
def requeue (c : C) (l l' : Pc C) (Q : List C) : List C :=
  match l, l' with
  | .swap, _ => Q ++ [c]
  | .cas, .out | .handOver _, _ => Q.tail
  | _, _ => Q

lemma Queue.step (h : Queue Q s) (hact : act c s.mem (s.loc c) = some (m, l)) :
    Queue (requeue c (s.loc c) l Q) (s.set c m l) := by
  have hfront := fun hc => h.front c (h.front_of_has hc)
  cases hl : s.loc c with
  | out =>
    rw [hl] at hact
    cases hact
    refine h.quiet (by rw [hl]; rfl) nofun (fun p hp => ?_) fun hhead => ?_
    · rw [hl] at hp
      exact hp
    · have := h.front c hhead
      rw [hl] at this
      exact this
  | clearNext =>
    rw [hl] at hact
    cases hact
    exact h.clearNext_step hl
  | swap =>
    rw [hl] at hact
    cases hact
    exact h.swap_step hl
  | setLocked p =>
    rw [hl] at hact
    cases hact
    exact h.setLocked_step hl
  | link p =>
    rw [hl] at hact
    cases hact
    exact h.link_step hl
  | spin =>
    rw [hl] at hact
    cases hact
    show Queue Q _
    split_ifs with hlocked
    · rw [← hl, set_self]
      exact h
    · -- who is not at the front finds its node locked
      refine h.quiet (by rw [hl]; rfl) nofun (fun p hp => ?_) fun _ => trivial
      rw [hl] at hp
      exact absurd hp.2 hlocked
  | held =>
    rw [hl] at hact
    cases hact
    exact h.keep (by rw [hl]; trivial) trivial trivial
  | checkNext =>
    rw [hl] at hact
    cases hact
    show Queue Q _
    split_ifs with hnext
    · exact h.keep (by rw [hl]; trivial) trivial trivial
    · exact h.keep (by rw [hl]; trivial) trivial hnext
  | cas =>
    rw [hl, act] at hact
    split_ifs at hact with hv
    · cases hact
      exact h.cas_step hl hv
    · cases hact
      exact h.keep (by rw [hl]; trivial) trivial hv
  | waitNext =>
    rw [hl] at hact hfront
    cases hact
    show Queue Q _
    split_ifs with hnext
    · exact h.keep (by rw [hl]; trivial) trivial (hfront trivial)
    · exact h.keep (by rw [hl]; trivial) trivial hnext
  | readNext =>
    rw [hl] at hact
    obtain ⟨n, hn, heq⟩ := Option.map_eq_some_iff.mp hact
    cases heq
    exact h.keep (by rw [hl]; trivial) trivial hn
  | handOver n =>
    rw [hl] at hact
    cases hact
    exact h.handOver_step hl

/-! ### All runs -/

lemma exists_queue (h : (mcslock C).Reachable s) : ∃ Q, Queue Q s := by
  refine Threads.invariant (I := fun s => ∃ Q, Queue Q s) (fun s hs => ?_)
    (fun s c _ m l hI _ hact => ?_) h
  · obtain ⟨hmem, hloc⟩ := hs
    refine ⟨[], nodup_nil, fun c => ?_, ?_, nofun, nofun, nofun, fun c hc => ?_⟩
    · rw [hloc c]
      exact iff_of_false not_mem_nil id
    · rw [hmem]
      rfl
    · rw [hmem]
  · obtain ⟨Q, hQ⟩ := hI
    exact ⟨_, hQ.step hact⟩

lemma eq_of_has (h : (mcslock C).Reachable s) (hc : (s.loc c).Has) (hd : (s.loc d).Has) :
    c = d := by
  obtain ⟨Q, hQ⟩ := exists_queue h
  exact Option.some.inj ((hQ.front_of_has hc).symm.trans (hQ.front_of_has hd))

lemma empty_of_out (h : (mcslock C).Reachable s) (hout : ∀ c, s.loc c = .out) :
    s.mem.v = none := by
  obtain ⟨Q, hQ⟩ := exists_queue h
  have hnil : Q = [] := eq_nil_iff_forall_not_mem.mpr fun c hc => by
    have := (hQ.mem c).mp hc
    rw [hout c] at this
    exact this
  rw [hQ.tail, hnil]
  rfl

end Corey.Sync.Mcs
