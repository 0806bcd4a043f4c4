import Corey.Lib.Waits
import Corey.Sync.Mcs

/-!
Who gets the queue lock, and when.

Each CPU takes the lock and releases it, over and over again, and the CPUs have their turns in any
order. The lock goes from one CPU to the next in the order of their exchanges. If no CPU is left
without a turn while it is in the queue, every CPU that has come gets the lock and releases it.
-/

namespace Corey.Sync.Mcs

open Function Corey.Threads Corey.Waits List

variable {C : Type} {s : Threads C (Mcslock C) (Pc C)} {m m' : Mcslock C} {l l' l'' : Pc C}
  {c d e : C} {Q W : List C} {k : ℕ}

/-- A CPU comes with the exchange of `mcs_lock`. -/
def Pc.comes (c : C) : Pc C → List C
  | .swap => [c]
  | _ => []

/-- `mcs_unlock` has returned. -/
def Pc.leaves (c : C) : Pc C → List C
  | .out => [c]
  | _ => []

variable [DecidableEq C]

/-- The state after `k` turns. -/
def turns (sch : ℕ → C) : ℕ → Threads C (Mcslock C) (Pc C)
  | 0 => ⟨{}, fun _ => .out⟩
  | k + 1 => ((mcslock C).step (sch k, ()) (turns sch k)).getD (turns sch k)

/-- The CPUs that have come, in the order of their exchanges. -/
def arrivals (sch : ℕ → C) : ℕ → List C
  | 0 => []
  | k + 1 => arrivals sch k ++ ((turns sch k).loc (sch k)).comes (sch k)

/-- The CPUs that have released the lock, in this order. -/
def departures (sch : ℕ → C) : ℕ → List C
  | 0 => []
  | k + 1 => departures sch k ++ ((turns sch (k + 1)).loc (sch k)).leaves (sch k)

/-! ### The order -/

lemma Queue.acts (h : Queue Q s) (c : C) : ∃ m l, act c s.mem (s.loc c) = some (m, l) := by
  cases hl : s.loc c with
  | cas =>
    rw [act]
    split_ifs
    all_goals exact ⟨_, _, rfl⟩
  | readNext =>
    have hnext := h.front c (h.front_of_has (by rw [hl]; trivial))
    rw [hl] at hnext
    obtain ⟨n, hn⟩ := Option.ne_none_iff_exists'.mp hnext
    exact ⟨_, _, by rw [act, hn, Option.map_some]⟩
  | _ => exact ⟨_, _, rfl⟩

lemma Queue.order (h : Queue Q s) (hact : act c s.mem (s.loc c) = some (m, l)) :
    Q ++ (s.loc c).comes c = l.leaves c ++ requeue c (s.loc c) l Q := by
  have hcons : (s.loc c).Has → Q = c :: Q.tail := fun hc => by
    obtain ⟨Q', rfl⟩ := head?_eq_some_iff.mp (h.front_of_has hc)
    rfl
  cases hl : s.loc c <;> rw [hl] at hact hcons <;>
    grind [act, Option.map_eq_some_iff, requeue, Pc.comes, Pc.leaves, Pc.Has]

variable {sch : ℕ → C}

lemma turns_succ (h : Queue Q (turns sch k)) :
    ∃ m l, act (sch k) (turns sch k).mem ((turns sch k).loc (sch k)) = some (m, l) ∧
      (mcslock C).step (sch k, ()) (turns sch k) = some (turns sch (k + 1)) ∧
      turns sch (k + 1) = (turns sch k).set (sch k) m l := by
  obtain ⟨m, l, hact⟩ := h.acts (sch k)
  have hstep : (mcslock C).step (sch k, ()) (turns sch k) =
      some ((turns sch k).set (sch k) m l) := by
    simp only [mcslock, interleaving, hact, Option.map_some]
  have hturn : turns sch (k + 1) = (turns sch k).set (sch k) m l := by
    rw [turns, hstep, Option.getD_some]
  exact ⟨m, l, hact, hturn ▸ hstep, hturn⟩

lemma queue_turns (sch : ℕ → C) (k : ℕ) :
    ∃ Q, Queue Q (turns sch k) ∧ arrivals sch k = departures sch k ++ Q := by
  induction k with
  | zero =>
    refine ⟨[], ⟨nodup_nil, fun c => ?_, rfl, nofun, nofun, nofun, nofun⟩, rfl⟩
    exact iff_of_false not_mem_nil id
  | succ k ih =>
    obtain ⟨Q, hQ, heq⟩ := ih
    obtain ⟨m, l, hact, -, hturn⟩ := turns_succ hQ
    refine ⟨_, hturn ▸ hQ.step hact, ?_⟩
    rw [arrivals, departures, hturn, set_loc_self, heq, append_assoc, append_assoc, hQ.order hact]

/-- **The queue lock serves in the order of arrival.** Whatever the order of their turns, no CPU
follows a link that is not there, CPUs release the lock in the order of their exchanges, and the
one that has it is the first of those that have come and not released it. -/
theorem mcs_in_order (sch : ℕ → C) (k : ℕ) :
    (mcslock C).step (sch k, ()) (turns sch k) = some (turns sch (k + 1)) ∧
      ∃ Q, arrivals sch k = departures sch k ++ Q ∧ Q.Nodup ∧
        ∀ c, ((turns sch k).loc c).Has → Q.head? = some c := by
  obtain ⟨Q, hQ, heq⟩ := queue_turns sch k
  obtain ⟨m, l, -, hstep, -⟩ := turns_succ hQ
  exact ⟨hstep, Q, heq, hQ.nodup, fun c => hQ.front_of_has⟩

/-! ### Waiting ends -/

/-- How many turns of its own the first CPU has before it at most, if it need not wait. -/
def Pc.left : Pc C → ℕ
  | .handOver _ => 1
  | .readNext => 2
  | .cas => 6
  | .checkNext => 7
  | .held => 8
  | .spin => 9
  | _ => 0

/-- How far the first CPU `c` is from its release, and whose turn brings it nearer: that of the
next CPU, if `c` waits to be linked to it. -/
def ahead (c : C) : Pc C → Option (C × Pc C) → ℕ × C
  | .waitNext, some (d, .setLocked _) => (5, d)
  | .waitNext, some (d, .link _) => (4, d)
  | .waitNext, _ => (3, c)
  | l, _ => (l.left, c)

/-- The same for the CPU in front of those of `W`. -/
def aheadOf (s : Threads C (Mcslock C) (Pc C)) (c : C) (W : List C) : ℕ × C :=
  Mcs.ahead c (s.loc c) (W.head?.map fun d => (d, s.loc d))

/-- After a turn of `e`. -/
def Nearer (e : C) (p p' : ℕ × C) : Prop := p'.1 < p.1 ∨ e ≠ p.2 ∧ p' = p

omit [DecidableEq C] in
lemma ahead_of_ne {o : Option (C × Pc C)} (h : l ≠ .waitNext) : ahead c l o = (l.left, c) := by
  cases l with
  | waitNext => exact absurd rfl h
  | _ => rfl

lemma first_nearer {o : Option (C × Pc C)} (hfront : Front m c l) (hnone : o = none → m.v = some c)
    (hlinked : ∀ d l', o = some (d, l') → c ≠ d ∧ Linked m c d l')
    (hact : act c m l = some (m', l')) :
    l' = .out ∨ Nearer c (ahead c l o) (ahead c l' o) := by
  cases l with
  | waitNext =>
    rcases o with _ | ⟨d, l''⟩
    · exact absurd (hnone rfl) hfront
    · obtain ⟨hcd, hl⟩ := hlinked d l'' rfl
      cases l'' <;> grind [act, Nearer, Linked, ahead, Pc.left]
  | cas =>
    have hle : (ahead c .waitNext o).1 ≤ 5 := by
      unfold ahead
      split <;> simp_all
    grind [act, Nearer, ahead_of_ne, Pc.left]
  | _ => grind [act, Option.map_eq_some_iff, Nearer, Front, ahead_of_ne, Pc.left]

lemma second_nearer (hcd : d ≠ c) (hlinked : Linked m c d l') (hact : act d m l' = some (m', l'')) :
    Nearer d (ahead c l (some (d, l'))) (ahead c l (some (d, l''))) := by
  by_cases hl : l = .waitNext
  · subst hl
    cases l' <;> grind [act, Nearer, Linked, ahead]
  · rw [ahead_of_ne hl, ahead_of_ne hl]
    exact .inr ⟨hcd, rfl⟩

omit [DecidableEq C] in
lemma aheadOf_snd : (aheadOf s c W).2 = c ∨ W.head? = some (aheadOf s c W).2 := by
  by_cases hl : s.loc c = .waitNext
  · cases W with
    | nil => exact .inl (by rw [aheadOf, hl]; rfl)
    | cons d W => cases hd : s.loc d <;> simp [aheadOf, ahead, hl, hd]
  · exact .inl (by rw [aheadOf, ahead_of_ne hl])

lemma Queue.nearer (h : Queue (c :: W) s) (hact : act e s.mem (s.loc e) = some (m, l)) :
    l = .out ∨ ∃ W', Queue (c :: W') (s.set e m l) ∧
      Nearer e (aheadOf s c W) (aheadOf (s.set e m l) c W') := by
  have hq := h.step hact
  have hfront := h.front c rfl
  have hsecond : ∀ {d W'}, W = d :: W' → c ≠ d ∧ Linked s.mem c d (s.loc d) := by
    rintro d W' rfl
    exact ⟨fun heq => (nodup_cons.mp h.nodup).1 (heq ▸ mem_cons_self), h.chain 0 c d rfl rfl⟩
  by_cases hec : e = c
  · subst hec
    refine or_iff_not_imp_left.mpr fun hout => ⟨W, ?_, ?_⟩
    · cases hl : s.loc e <;> rw [hl] at hact hq hfront <;> grind [requeue, Front, act]
    · rw [aheadOf, aheadOf, set_loc_self]
      cases W with
      | nil =>
        exact (first_nearer (o := none) hfront (fun _ => h.tail) (by simp) hact).resolve_left hout
      | cons d W =>
        obtain ⟨hed, hlinked⟩ := hsecond rfl
        simp only [head?_cons, Option.map_some, set_loc_of_ne hed.symm]
        refine (first_nearer (o := some (d, s.loc d)) hfront (by simp) (fun d' l' hd => ?_)
          hact).resolve_left hout
        cases hd
        exact ⟨hed, hlinked⟩
  · have hrest : ∃ V, requeue e (s.loc e) l (c :: W) = c :: (W ++ V) := by
      have hhas : ¬ (s.loc e).Has := fun he => hec (Option.some.inj (h.front_of_has he)).symm
      cases hl : s.loc e with
      | swap => exact ⟨[e], rfl⟩
      | cas | handOver n => exact absurd (by rw [hl]; trivial) hhas
      | _ => exact ⟨[], by rw [append_nil]; rfl⟩
    obtain ⟨V, hV⟩ := hrest
    refine .inr ⟨W ++ V, hV ▸ hq, ?_⟩
    have hc : (s.set e m l).loc c = s.loc c := set_loc_of_ne (Ne.symm hec)
    have hother : W.head? ≠ some e → e ≠ (aheadOf s c W).2 := fun hne heq => by
      rcases aheadOf_snd (s := s) (c := c) (W := W) with h | h
      · exact hec (heq.trans h)
      · exact hne (heq ▸ h)
    cases W with
    | nil =>
      have hwait : s.loc c ≠ .waitNext := fun hl => by
        rw [hl] at hfront
        exact hfront h.tail
      refine .inr ⟨hother (by simp), ?_⟩
      rw [aheadOf, aheadOf, hc, ahead_of_ne hwait, ahead_of_ne hwait]
    | cons d W =>
      obtain ⟨hcd, hlinked⟩ := hsecond rfl
      by_cases hed : e = d
      · subst hed
        simp only [aheadOf, head?_cons, Option.map_some, cons_append, hc, set_loc_self]
        exact second_nearer hcd.symm hlinked hact
      · refine .inr ⟨hother fun heq => hed (Option.some.inj heq).symm, ?_⟩
        simp only [aheadOf, head?_cons, Option.map_some, cons_append, hc,
          set_loc_of_ne (Ne.symm hed)]

lemma one_leaves (hfair : ∀ c k, ((turns sch k).loc c).Queued → ∃ j ≥ k, sch j = c)
    (h : departures sch k ≠ arrivals sch k) :
    ∃ j ≥ k, (departures sch k).length < (departures sch j).length := by
  let P (j r : ℕ) (a : C) : Prop := k ≤ j ∧ ∃ c W, Queue (c :: W) (turns sch j) ∧
    aheadOf (turns sch j) c W = (r, a)
  have hturn : ∀ j r a, P j r a → ∃ i ≥ j, sch i = a := by
    rintro j r a ⟨-, c, W, hQ, hahead⟩
    have hsnd := aheadOf_snd (s := turns sch j) (c := c) (W := W)
    rw [hahead] at hsnd
    exact hfair a j ((hQ.mem a).mp (mem_cons.mpr (hsnd.imp_right mem_of_mem_head?)))
  have hstep : ∀ j r a, P j r a → (departures sch k).length < (departures sch (j + 1)).length ∨
      (∃ r' < r, ∃ a', P (j + 1) r' a') ∨ sch j ≠ a ∧ P (j + 1) r a := by
    rintro j r a ⟨hkj, c, W, hQ, hahead⟩
    obtain ⟨m, l, hact, -, hturn⟩ := turns_succ hQ
    have hnear := hQ.nearer hact
    rw [hahead, ← hturn] at hnear
    rcases hnear with hout | ⟨W', hQ', hlt | ⟨hne, hsame⟩⟩
    · have hle := (Nat.rel_of_forall_rel_succ_of_le (· <+: ·) (f := departures sch)
        (fun _ => prefix_append _ _) hkj).length_le
      rw [departures, hturn, set_loc_self, hout, length_append]
      exact .inl (Nat.lt_succ_of_le hle)
    · exact .inr (.inl ⟨_, hlt, _, by omega, c, W', hQ', rfl⟩)
    · exact .inr (.inr ⟨hne, by omega, c, W', hQ', hsame⟩)
  obtain ⟨Q, hQ, heq⟩ := queue_turns sch k
  cases Q with
  | nil => exact absurd (heq.trans (append_nil _)).symm h
  | cons c W => exact eventually hturn hstep (⟨le_rfl, c, W, hQ, rfl⟩ : P k _ _)

/-- **Nobody waits for the queue lock for ever.** If a CPU in the queue always has another turn, all
CPUs that have come by some time have got and released the lock by a later one, in this order. -/
theorem mcs_serves_all (hfair : ∀ c k, ((turns sch k).loc c).Queued → ∃ j ≥ k, sch j = c) (k : ℕ) :
    ∃ j ≥ k, arrivals sch k <+: departures sch j := by
  have hpre : ∀ j ≥ k, arrivals sch k <+: arrivals sch j := fun j hj =>
    Nat.rel_of_forall_rel_succ_of_le (· <+: ·) (fun _ => prefix_append _ _) hj
  have hlen : ∀ n ≤ (arrivals sch k).length, ∃ j ≥ k, n ≤ (departures sch j).length := by
    intro n
    induction n with
    | zero => exact fun _ => ⟨k, le_rfl, Nat.zero_le _⟩
    | succ n ih =>
      intro hn
      obtain ⟨j, hj, hnj⟩ := ih (by omega)
      have hle := (hpre j hj).length_le
      by_cases hlt : n < (departures sch j).length
      · exact ⟨j, hj, hlt⟩
      · obtain ⟨i, hi, hless⟩ := one_leaves hfair (k := j) fun heq => by
          rw [heq] at hlt
          omega
        exact ⟨i, by omega, by omega⟩
  obtain ⟨j, hj, hle⟩ := hlen _ le_rfl
  obtain ⟨Q, -, heq⟩ := queue_turns sch j
  exact ⟨j, hj, prefix_of_prefix_length_le (hpre j hj) (heq ▸ prefix_append _ _) hle⟩

theorem mcs_serves_all_two :
    ∃ j ≥ 6, arrivals (fun k : ℕ => k % 2 == 1) 6 <+: departures (fun k : ℕ => k % 2 == 1) j :=
  mcs_serves_all (fun a k _ => ⟨2 * k + a.toNat, by omega, by cases a <;> simp⟩) 6

end Corey.Sync.Mcs
