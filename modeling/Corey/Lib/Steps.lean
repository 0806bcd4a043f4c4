import Corey.Lib.System
import Mathlib.Logic.Relation

/-!
What a computation can do to its state, as a sequence of small steps.

`Steps R m` says that every run of `m` that does not stop takes the state through steps of `R`
only. It is shown once for each function, along the way the function is written. What each step
of `R` keeps is then kept by every function, so an invariant needs one look at `R` and none at
the functions. `Errless m` says that `m` never raises an error, and is shown the same way.
-/

namespace Corey.Comp

open Relation (ReflTransGen)

variable {ε σ τ α β : Type} {R R' : σ → σ → Prop} {m m' : Comp ε σ α} {s s' : σ}
  {f : α → Comp ε σ β} {c : Prop} {g : σ → τ} {p : τ → σ → σ} {I : σ → Prop}

/-- A run that does not stop. -/
def Ends (m : Comp ε σ α) (s : σ) : Prop := ∀ w, (m s).1 ≠ .stop w

def Steps (R : σ → σ → Prop) (m : Comp ε σ α) : Prop :=
  ∀ s, m.Ends s → ReflTransGen R s (m s).2

namespace Steps

lemma mono (hm : Steps R m) (h : ∀ s s', R s s' → R' s s') : Steps R' m := fun s hs =>
  Relation.ReflTransGen.mono h _ _ (hm s hs)

lemma of_quiet (h : ∀ s, (m s).2 = s) : Steps R m := fun s _ => by rw [h s]

lemma of_rel (h : ∀ s, m.Ends s → R s (m s).2) : Steps R m := fun s hs => .single (h s hs)

lemma pure (a : α) : Steps R (Pure.pure a : Comp ε σ α) := of_quiet fun _ => rfl
lemma state : Steps R (Comp.state : Comp ε σ σ) := of_quiet fun _ => rfl
lemma raise (e : ε) : Steps R (Comp.raise e : Comp ε σ α) := of_quiet fun _ => rfl
lemma halt (w : Stop) : Steps R (Comp.halt w : Comp ε σ α) := of_quiet fun _ => rfl

lemma require (p : Prop) [Decidable p] : Steps R (Comp.require p : Comp ε σ Unit) :=
  of_quiet fun _ => by by_cases h : p <;> simp only [Comp.require, h, if_true, if_false] <;> rfl

lemma need (w : Stop) (o : Option α) : Steps R (Comp.need w o : Comp ε σ α) :=
  of_quiet fun _ => by cases o <;> rfl

lemma change {f : σ → σ} (h : ∀ s, R s (f s)) : Steps R (Comp.change f : Comp ε σ Unit) :=
  of_rel fun s _ => h s

/-- The rest of a computation may rely on what its first part has found out. -/
lemma bind_of (hm : Steps R m)
    (hf : ∀ s a s', m s = (.ok a, s') → (f a).Ends s' → ReflTransGen R s' (f a s').2) :
    Steps R (m >>= f) := by
  intro s hs
  have h := hm s
  change (Comp.bind m f).Ends s at hs
  show ReflTransGen R s (Comp.bind m f s).2
  simp only [Ends, Comp.bind] at hs h ⊢
  rcases hms : m s with ⟨a | e | w, t⟩ <;> rw [hms] at h hs
  · exact (h (by simp)).trans (hf s a t hms hs)
  · exact h (by simp)
  · exact absurd rfl (hs w)

lemma bind (hm : Steps R m) (hf : ∀ a, Steps R (f a)) : Steps R (m >>= f) :=
  bind_of hm fun _ a s' _ hs => hf a s' hs

lemma seq {m : Comp ε σ Unit} {f : Comp ε σ β} (hm : Steps R m) (hf : Steps R f) :
    Steps R (do m; f) := bind hm fun _ => hf

lemma ite [Decidable c] (h : Steps R m) (h' : Steps R m') : Steps R (if c then m else m') := by
  by_cases hc : c
  · rwa [if_pos hc]
  · rwa [if_neg hc]

/-- What comes after a conditional that has one branch. -/
lemma join [Decidable c] {m : Comp ε σ Unit} {f : Unit → Comp ε σ β}
    (hm : Steps R m) (hf : ∀ a, Steps R (f a)) : Steps R (if c then (m >>= f) else f ()) :=
  ite (bind hm hf) (hf ())

lemma attempt (hm : Steps R m) : Steps R (Comp.attempt m) := by
  intro s hs
  have h := hm s
  simp only [Ends, Comp.attempt] at hs h ⊢
  rcases hms : m s with ⟨_ | _ | w, t⟩ <;> rw [hms] at h hs
  · exact h (by simp)
  · exact h (by simp)
  · exact absurd rfl (hs w)

lemma onErr {h : Comp ε σ Unit} (hm : Steps R m) (hh : Steps R h) : Steps R (Comp.onErr m h) := by
  intro s hs
  have h1 := hm s
  simp only [Ends, Comp.onErr] at hs h1 ⊢
  rcases hms : m s with ⟨_ | _ | w, t⟩ <;> simp only [hms] at h1 hs ⊢
  · exact h1 (by simp)
  · have h2 := hh t
    rw [Ends] at h2
    rcases hht : h t with ⟨_ | _ | w, u⟩ <;> simp only [hht] at h2 hs ⊢
    · exact (h1 (by simp)).trans (h2 (by simp))
    · exact (h1 (by simp)).trans (h2 (by simp))
    · exact absurd rfl (hs w)
  · exact absurd rfl (hs w)

lemma loop {body : ℕ → Comp ε σ Unit} (hb : ∀ i, Steps R (body i)) :
    ∀ k i, Steps R (Comp.loop body i k)
  | 0, _ => pure ()
  | k + 1, i => seq (hb i) (loop hb k (i + 1))

lemma forEach_mem {body : α → Comp ε σ Unit} :
    ∀ l : List α, (∀ a ∈ l, Steps R (body a)) → Steps R (Comp.forEach body l)
  | [], _ => pure ()
  | a :: l, hb => seq (hb a List.mem_cons_self) (forEach_mem l fun c hc =>
      hb c (List.mem_cons_of_mem a hc))

lemma forEach {body : α → Comp ε σ Unit} (hb : ∀ a, Steps R (body a)) (l : List α) :
    Steps R (Comp.forEach body l) := forEach_mem l fun a _ => hb a

/-- Steps of a part of the state are steps of the whole. -/
lemma zoom {S : τ → τ → Prop} {m : Comp ε τ α} (hm : Steps S m)
    (hid : ∀ s, p (g s) s = s) (hstep : ∀ s t t', S t t' → R (p t s) (p t' s)) :
    Steps R (Comp.zoom g p m) := by
  intro s hs
  have h : ReflTransGen R (p (g s) s) (p (m (g s)).2 s) :=
    (hm (g s) hs).lift (fun t => p t s) fun t t' ht => hstep s t t' ht
  rwa [hid s] at h

/-- What every step keeps the computation keeps. -/
lemma keeps (hI : ∀ s s', R s s' → I s → I s') {t : σ} (ht : ReflTransGen R s t) (h : I s) :
    I t := by
  induction ht with
  | refl => exact h
  | tail _ hR ih => exact hI _ _ hR ih

lemma of_next (hm : Steps R m) (hn : m.next s = some s') : ReflTransGen R s s' := by
  have h := hm s
  simp only [next, Ends] at hn h
  rcases hms : m s with ⟨_ | _ | _, t⟩ <;> rw [hms] at hn h
  · cases hn
    exact h (by simp)
  · cases hn
    exact h (by simp)
  · cases hn

lemma of_ok {a : α} (hm : Steps R m) (ho : m s = (.ok a, s')) : ReflTransGen R s s' := by
  have h := hm s
  rw [Ends, ho] at h
  exact h nofun

/-- What the steps of a computation keep holds where it ends. -/
lemma wp_keeps (hm : Steps R m) (hI : ∀ s s', R s s' → I s → I s') (h : I s) :
    wp m (fun _ => I) (Exits.both I) s := by
  have hs := hm s
  simp only [wp, Ends] at hs ⊢
  rcases hms : m s with ⟨_ | _ | w, t⟩ <;> rw [hms] at hs
  · exact keeps hI (hs (by simp)) h
  · exact keeps hI (hs (by simp)) h
  · trivial

lemma wp_any (hm : Steps R m) (hI : ∀ s s', R s s' → I s → I s') (h : I s) :
    wp m (fun _ => I) Exits.any s :=
  wp_mono (hm.wp_keeps hI h) (fun _ _ => id) fun _ _ _ => trivial

/-- A postcondition of every run that does not stop, as a step. -/
lemma of_wp (h : ∀ s, wp m (fun _ t => R s t) (Exits.both (R s)) s) : Steps R m :=
  of_rel fun s hs => by
    have h' := h s
    simp only [wp, Ends] at h' hs
    rcases hms : m s with ⟨_ | _ | w, t⟩ <;> simp only [hms] at h' hs ⊢
    · exact h'
    · exact h'
    · exact absurd rfl (hs w)

end Steps

def Errless (m : Comp ε σ α) : Prop := ∀ s e, (m s).1 ≠ .err e

namespace Errless

lemma pure (a : α) : Errless (Pure.pure a : Comp ε σ α) := fun _ _ => nofun
lemma state : Errless (Comp.state : Comp ε σ σ) := fun _ _ => nofun
lemma halt (w : Stop) : Errless (Comp.halt w : Comp ε σ α) := fun _ _ => nofun
lemma change (f : σ → σ) : Errless (Comp.change f : Comp ε σ Unit) := fun _ _ => nofun

lemma ite [Decidable c] (h : Errless m) (h' : Errless m') : Errless (if c then m else m') := by
  by_cases hc : c
  · rwa [if_pos hc]
  · rwa [if_neg hc]

lemma require (p : Prop) [Decidable p] : Errless (Comp.require p : Comp ε σ Unit) :=
  ite (pure _) (halt _)

lemma need (w : Stop) (o : Option α) : Errless (Comp.need w o : Comp ε σ α) := by
  cases o with
  | none => exact halt w
  | some a => exact pure a

lemma bind (hm : Errless m) (hf : ∀ a, Errless (f a)) : Errless (m >>= f) := by
  intro s e
  show (Comp.bind m f s).1 ≠ .err e
  have h := hm s
  simp only [Comp.bind]
  rcases hms : m s with ⟨a | e' | w, t⟩ <;> rw [hms] at h
  · exact hf a t e
  · exact absurd rfl (h e')
  · simp

lemma seq {m : Comp ε σ Unit} {f : Comp ε σ β} (hm : Errless m) (hf : Errless f) :
    Errless (do m; f) := bind hm fun _ => hf

lemma attempt (m : Comp ε σ α) : Errless (Comp.attempt m) := by
  intro s e
  simp only [Comp.attempt]
  rcases m s with ⟨_ | _ | _, _⟩ <;> simp

lemma zoom {m : Comp ε τ α} (hm : Errless m) : Errless (Comp.zoom g p m) := fun s => hm (g s)

lemma loop {body : ℕ → Comp ε σ Unit} (hb : ∀ i, Errless (body i)) :
    ∀ k i, Errless (Comp.loop body i k)
  | 0, _ => pure ()
  | k + 1, i => seq (hb i) (loop hb k (i + 1))

lemma forEach {body : α → Comp ε σ Unit} (hb : ∀ a, Errless (body a)) :
    ∀ l : List α, Errless (Comp.forEach body l)
  | [] => pure ()
  | a :: l => seq (hb a) (forEach hb l)

/-- Where a computation that raises no error ends, it ends with its value. -/
lemma wp_run (hm : Errless m) : wp m (fun a t => m s = (.ok a, t)) Exits.mayStop s := by
  have he := hm s
  simp only [wp]
  rcases hms : m s with ⟨_ | e | w, t⟩
  · rfl
  · exact absurd (congrArg Prod.fst hms) (he e)
  · trivial

lemma wp_mayStop (hm : Errless m) : wp m (fun _ _ => True) Exits.mayStop s :=
  wp_post hm.wp_run fun _ _ _ => trivial

/-- Only the value needs a postcondition. -/
lemma wp_both {Q : α → σ → Prop} {J : σ → Prop} (hm : Errless m) (h : wp m Q Exits.any s) :
    wp m Q (Exits.both J) s := by
  have he := hm s
  simp only [wp] at h ⊢
  rcases hms : m s with ⟨_ | e | w, t⟩ <;> rw [hms] at he h
  · exact h
  · exact absurd rfl (he e)
  · trivial

lemma steps (hm : Errless m) (h : ∀ s, wp m (fun _ t => R s t) Exits.any s) : Steps R m :=
  .of_wp fun s => hm.wp_both (h s)

/-- What the steps of a computation keep holds where it ends with a value. -/
lemma wp_of_steps {J : σ → Prop} (hm : Errless m) (hst : Steps R m)
    (hI : ∀ s s', R s s' → I s → I s') (h : I s) : wp m (fun _ => I) (Exits.both J) s :=
  hm.wp_both (hst.wp_any hI h)

end Errless

end Corey.Comp
