import Corey.Lib.Comp

/-!
Systems that take one step after another.

A step is labelled by what happens in it and is a partial function of the state. The states of
a run are those reached from an initial one; a run may be asked to take only steps that meet a
condition on the state they start from.
-/

namespace Corey

variable {ε σ α β : Type} {I : σ → Prop} {l : List α}

structure System (σ α : Type) where
  init : σ → Prop
  step : α → σ → Option σ

namespace System

variable {S : System σ α} {ok ok' : σ → α → Prop} {s s' : σ}

/-- The states of runs all of whose steps meet `ok`. -/
inductive Reach (S : System σ α) (ok : σ → α → Prop) : σ → Prop
  | start {s : σ} (h : S.init s) : Reach S ok s
  | next {s s' : σ} {a : α} (h : Reach S ok s) (hok : ok s a) (hs : S.step a s = some s') :
    Reach S ok s'

/-- The states of all runs. -/
abbrev Reachable (S : System σ α) : σ → Prop := S.Reach fun _ _ => True

/-- What holds at the start and is kept by every step holds throughout. -/
lemma Reach.invariant (h0 : ∀ s, S.init s → I s)
    (hstep : ∀ s a s', I s → ok s a → S.step a s = some s' → I s') (h : S.Reach ok s) : I s := by
  induction h with
  | start h => exact h0 _ h
  | next _ hok hs ih => exact hstep _ _ _ ih hok hs

/-- The state a list of steps leads to, each of which passes a test in the state it starts
from. -/
def run (S : System σ α) (test : σ → α → Bool) : List α → σ → Option σ
  | [], s => some s
  | a :: l, s => if test s a then (S.step a s).bind (run S test l) else none

lemma Reach.run {test : σ → α → Bool} (ht : ∀ s a, test s a = true → ok s a)
    (h : S.Reach ok s) (hr : S.run test l s = some s') : S.Reach ok s' := by
  induction l generalizing s with
  | nil =>
    cases hr
    exact h
  | cons a l ih =>
    simp only [System.run] at hr
    split_ifs at hr with hta
    cases hs : S.step a s with
    | none => simp [hs] at hr
    | some t =>
      rw [hs] at hr
      exact ih (h.next (ht s a hta) hs) hr

end System

structure Process (σ α ο : Type) where
  step : α → σ → Option (ο × σ)

namespace Process

variable {τ ο : Type} {ok : σ → α → Prop}

/-- The answers to a list of inputs, if the machine takes all of them. -/
def trace (P : Process σ α ο) : List α → σ → Option (List ο × σ)
  | [], s => some ([], s)
  | a :: l, s =>
    match P.step a s with
    | none => none
    | some (o, t) => (trace P l t).map fun r => (o :: r.1, r.2)

/-- The rule for one machine that answers as another does: related states stay related, and
give the same answers. -/
lemma trace_simulation {P : Process σ α ο} {Q : Process τ α ο} {R : σ → τ → Prop}
    (hstep : ∀ a s t o s', R s t → P.step a s = some (o, s') →
      ∃ t', Q.step a t = some (o, t') ∧ R s' t') :
    ∀ {l : List α} {s s' : σ} {t : τ} {os : List ο}, R s t → P.trace l s = some (os, s') →
      ∃ t', Q.trace l t = some (os, t') ∧ R s' t'
  | [], s, s', t, os, hR, h => by
    cases h
    exact ⟨t, rfl, hR⟩
  | a :: l, s, s', t, os, hR, h => by
    simp only [trace] at h ⊢
    rcases hs : P.step a s with _ | ⟨o, s1⟩
    · simp [hs] at h
    · rw [hs] at h
      obtain ⟨⟨os1, s2⟩, hrest, heq⟩ := Option.map_eq_some_iff.mp h
      cases heq
      obtain ⟨t1, ht1, hR1⟩ := hstep a s t o s1 hR hs
      obtain ⟨t2, ht2, hR2⟩ := trace_simulation hstep hR1 hrest
      exact ⟨t2, by simp [ht1, ht2], hR2⟩

/-- Every step of a run meets a condition on the state it starts from. -/
def Meets (P : Process σ α ο) (ok : σ → α → Prop) : List α → σ → Prop
  | [], _ => True
  | a :: l, s => ok s a ∧ ∀ o t, P.step a s = some (o, t) → Meets P ok l t

instance Meets.decidable {P : Process σ α ο} {ok : σ → α → Prop}
    [∀ s a, Decidable (ok s a)] : ∀ l s, Decidable (P.Meets ok l s)
  | [], _ => isTrue trivial
  | a :: l, s =>
    match h : P.step a s with
    | none => decidable_of_iff (ok s a)
        ⟨fun hok => ⟨hok, fun _ _ hs => by simp [h] at hs⟩, fun hm => hm.1⟩
    | some (o, t) =>
      have : Decidable (P.Meets ok l t) := Meets.decidable l t
      decidable_of_iff (ok s a ∧ P.Meets ok l t)
        ⟨fun hm => ⟨hm.1, fun o' t' hs => by
            rw [h] at hs
            cases hs
            exact hm.2⟩,
          fun hm => ⟨hm.1, hm.2 o t h⟩⟩

/-- The same rule for total correctness: where both machines meet their conditions they take
the step, so they take the whole run. The relation may speak of the inputs so far. -/
lemma trace_of_meets₂ {P : Process σ α ο} {Q : Process τ α ο} {R : List α → σ → τ → Prop}
    {ok' : τ → α → Prop} (hstep : ∀ past a s t, R past s t → ok s a → ok' t a →
      ∃ o s' t', P.step a s = some (o, s') ∧ Q.step a t = some (o, t') ∧ R (past ++ [a]) s' t') :
    ∀ {l : List α} (past : List α) {s : σ} {t : τ}, R past s t → P.Meets ok l s → Q.Meets ok' l t →
      ∃ os s' t', P.trace l s = some (os, s') ∧ Q.trace l t = some (os, t') ∧ R (past ++ l) s' t'
  | [], past, s, t, hR, _, _ => ⟨[], s, t, rfl, rfl, by rwa [List.append_nil]⟩
  | a :: l, past, s, t, hR, h, h' => by
    obtain ⟨o, s1, t1, hs, ht, hR1⟩ := hstep past a s t hR h.1 h'.1
    obtain ⟨os, s2, t2, hs2, ht2, hR2⟩ := trace_of_meets₂ hstep _ hR1 (h.2 o s1 hs) (h'.2 o t1 ht)
    rw [List.append_assoc] at hR2
    exact ⟨o :: os, s2, t2, by simp [trace, hs, hs2], by simp [trace, ht, ht2], hR2⟩

lemma meets_true (Q : Process τ α ο) : ∀ (l : List α) (t : τ), Q.Meets (fun _ _ => True) l t
  | [], _ => trivial
  | _ :: l, _ => ⟨trivial, fun _ u _ => meets_true Q l u⟩

/-- The rule where only the first machine has a condition to meet. -/
lemma trace_of_meets {P : Process σ α ο} {Q : Process τ α ο} {R : σ → τ → Prop}
    (hstep : ∀ a s t, R s t → ok s a →
      ∃ o s' t', P.step a s = some (o, s') ∧ Q.step a t = some (o, t') ∧ R s' t')
    {s : σ} {t : τ} (hR : R s t) (h : P.Meets ok l s) :
    ∃ os s' t', P.trace l s = some (os, s') ∧ Q.trace l t = some (os, t') ∧ R s' t' :=
  trace_of_meets₂ (R := fun _ => R) (fun _ a s t hR hok _ => hstep a s t hR hok) [] hR h
    (meets_true Q l t)

end Process

namespace Comp

/-- What a caller sees of a computation that ends: its value or its error. -/
def reply (m : Comp ε σ β) (s : σ) : Option (Except ε β × σ) :=
  match m s with
  | (.ok b, s') => some (.ok b, s')
  | (.err e, s') => some (.error e, s')
  | (.stop _, _) => none

/-- The state a computation leaves behind, if there is one. -/
def next (m : Comp ε σ β) (s : σ) : Option σ :=
  match m s with
  | (.ok _, s') => some s'
  | (.err _, s') => some s'
  | (.stop _, _) => none

/-- The value and the state of a computation that ends well. -/
def result (m : Comp ε σ β) (s : σ) : Option (β × σ) :=
  match m s with
  | (.ok b, s') => some (b, s')
  | _ => none

variable {m : Comp ε σ β}

lemma result_eq_some {s s' : σ} {b : β} : m.result s = some (b, s') ↔ m s = (.ok b, s') := by
  simp only [result]
  rcases m s with ⟨_ | _ | _, t⟩ <;> simp

lemma reply_eq_error {s s' : σ} {e : ε} : m.reply s = some (.error e, s') ↔ m s = (.err e, s') := by
  simp only [reply]
  rcases m s with ⟨_ | _ | _, t⟩ <;> simp

lemma reply_ok {α : Type} {m : Comp ε σ α} {f : α → Comp ε σ β} {a : α} {s t : σ}
    (h : m s = (.ok a, t)) : (m >>= f).reply s = (f a).reply t := by
  simp only [reply, bind_of_ok h]

lemma reply_err {α : Type} {m : Comp ε σ α} {f : α → Comp ε σ β} {e : ε} {s t : σ}
    (h : m s = (.err e, t)) : (m >>= f).reply s = some (.error e, t) := by
  show reply (Comp.bind m f) s = _
  simp only [reply, Comp.bind, h]

/-- The state an error leaves behind. -/
def failed (m : Comp ε σ β) (s : σ) : Option σ :=
  match m s with
  | (.err _, s') => some s'
  | _ => none

lemma failed_eq_some {s s' : σ} : m.failed s = some s' ↔ ∃ e, m s = (.err e, s') := by
  simp only [failed]
  rcases m s with ⟨_ | _ | _, t⟩ <;> simp

/-- A computation that ends, well or with an error. -/
@[reducible] def Exits.both (I : σ → Prop) : Exits ε σ where
  err _ s := I s
  stop _ _ := True

/-- What holds in the state in which a run of `m` ends. -/
abbrev Leaves (m : Comp ε σ β) (I : σ → Prop) (s : σ) : Prop := wp m (fun _ => I) (.both I) s

lemma Leaves.mono {J : σ → Prop} {s : σ} (h : m.Leaves I s) (hI : ∀ t, I t → J t) : m.Leaves J s :=
  wp_mono h (fun _ => hI) fun _ => hI

/-- What every run keeps is added to what is known of its end. -/
lemma Leaves.and {J : σ → Prop} {Q : β → σ → Prop} {E : ε → σ → Prop} {S : Stop → σ → Prop} {s : σ}
    (hJ : m.Leaves J s) (h : wp m Q ⟨E, S⟩ s) :
    wp m (fun b t => J t ∧ Q b t) ⟨fun e t => J t ∧ E e t, S⟩ s :=
  wp_imp (wp_and hJ h) (fun _ _ h => h) (fun _ _ h => h) fun _ _ h => h.2

lemma next_of_wp {s s' : σ} (h : m.Leaves I s) (hn : m.next s = some s') : I s' := by
  simp only [wp, next] at h hn
  rcases hm : m s with ⟨_ | _ | _, t⟩ <;> rw [hm] at h hn
  · cases hn
    exact h
  · cases hn
    exact h
  · cases hn

lemma next_eq_of_wp {s s' : σ} (h : wp m (fun _ t => t = s') Exits.never s) :
    m.next s = some s' := by
  simp only [wp, next] at h ⊢
  rcases hm : m s with ⟨_ | _ | _, t⟩ <;> rw [hm] at h
  · exact congrArg some h
  · exact h.elim
  · exact h.elim

end Comp

end Corey
