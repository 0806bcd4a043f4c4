import Corey.Lib.Steps

/-!
Invariants of computations.

`Gives X I P m` says that a run of `m` from a state in which `I` holds ends in one where `I` holds
and a value it ends with has the property `P`, or that it leaves through `X`. Like `Steps` it is
shown once for each function, along the way the function is written; it is the rule to use where a
step keeps the invariant only because of what has been read before.

Errors keep the invariant. A computation `Keeps` it if nothing is said of runs that stop, and it
`Stays` if it holds where they stop as well.
-/

namespace Corey.Comp

variable {ε σ τ α β : Type} {I : σ → Prop} {P : α → σ → Prop} {Q : β → σ → Prop}
  {m : Comp ε σ α} {s s' : σ} {X : Exits ε σ}

/-- The exits by which an invariant may leave. -/
class Exits.Of (I : outParam (σ → Prop)) (X : Exits ε σ) : Prop where
  err : ∀ e s, X.err e s ↔ I s
  stop : ∀ w s, I s → X.stop w s

@[reducible] def Exits.all (I : σ → Prop) : Exits ε σ := ⟨fun _ => I, fun _ => I⟩

instance : Exits.Of I (Exits.both I : Exits ε σ) := ⟨fun _ _ => Iff.rfl, fun _ _ _ => trivial⟩

instance : Exits.Of I (Exits.all I : Exits ε σ) := ⟨fun _ _ => Iff.rfl, fun _ _ => id⟩

def Gives (X : Exits ε σ) (I : σ → Prop) (P : α → σ → Prop) (m : Comp ε σ α) : Prop :=
  ∀ s, I s → wp m (fun a t => I t ∧ P a t) X s

abbrev Keeps (I : σ → Prop) (m : Comp ε σ α) : Prop := Gives (Exits.both I) I (fun _ _ => True) m

abbrev Stays (I : σ → Prop) (m : Comp ε σ α) : Prop := Gives (Exits.all I) I (fun _ _ => True) m

/-- However it ends, a computation ends where it ends. -/
lemma wp_final (m : Comp ε σ α) (s : σ) :
    wp m (fun _ t => t = (m s).2) (Exits.all fun t => t = (m s).2) s := by
  simp only [wp]
  rcases m s with ⟨_ | _ | _, t⟩ <;> rfl

namespace Gives

lemma mono {P' : α → σ → Prop} (hm : Gives X I P m) (h : ∀ a t, I t → P a t → P' a t) :
    Gives X I P' m := fun s hs => wp_post (hm s hs) fun a t ht => ⟨ht.1, h a t ht.1 ht.2⟩

/-- The invariant alone. -/
lemma keeps (hm : Gives X I P m) : Gives X I (fun _ _ => True) m := hm.mono fun _ _ _ _ => trivial

lemma pure {a : α} (h : ∀ t, I t → P a t) : Gives X I P (Pure.pure a : Comp ε σ α) := fun s hs =>
  ⟨hs, h s hs⟩

lemma done (a : α) : Gives X I (fun _ _ => True) (Pure.pure a : Comp ε σ α) :=
  pure fun _ _ => trivial

lemma state : Gives X I (fun a t => a = t) (Comp.state : Comp ε σ σ) := fun _ hs => ⟨hs, rfl⟩

lemma change {f : σ → σ} (h : ∀ s, I s → I (f s)) :
    Gives X I (fun _ _ => True) (Comp.change f : Comp ε σ Unit) := fun s hs => ⟨h s hs, trivial⟩

variable {f : α → Comp ε σ β}

/-- The rest of a computation may rely on what its first part has found. -/
lemma bind_of (hm : Gives X I P m)
    (hf : ∀ a t, I t → P a t → wp (f a) (fun b u => I u ∧ Q b u) X t) :
    Gives X I Q (m >>= f) := fun s hs =>
  wp_bind.mpr (wp_mono (hm s hs) (fun a t ht => hf a t ht.1 ht.2) (fun _ _ => id))

lemma bind (hm : Gives X I P m) (hf : ∀ a, Gives X I Q (f a)) : Gives X I Q (m >>= f) :=
  bind_of hm fun a t ht _ => hf a t ht

/-- What has been found does not depend on the state. -/
lemma bind_val {p : α → Prop} (hm : Gives X I (fun a _ => p a) m)
    (hf : ∀ a, p a → Gives X I Q (f a)) : Gives X I Q (m >>= f) :=
  bind_of hm fun a t ht ha => hf a ha t ht

lemma seq {m : Comp ε σ Unit} {f : Comp ε σ β} (hm : Gives X I (fun _ _ => True) m)
    (hf : Gives X I Q f) : Gives X I Q (do m; f) := bind hm fun _ => hf

lemma ite {c : Prop} [Decidable c] {m' : Comp ε σ α} (h : Gives X I P m) (h' : Gives X I P m') :
    Gives X I P (if c then m else m') := by
  by_cases hc : c
  · rwa [if_pos hc]
  · rwa [if_neg hc]

/-- What comes after a conditional that has one branch. -/
lemma join {c : Prop} [Decidable c] {m : Comp ε σ Unit} {f : Unit → Comp ε σ β}
    (hm : Gives X I (fun _ _ => True) m) (hf : ∀ a, Gives X I Q (f a)) :
    Gives X I Q (if c then (m >>= f) else f ()) := ite (bind hm hf) (hf ())

lemma loop {body : ℕ → Comp ε σ Unit} (hb : ∀ i, Gives X I (fun _ _ => True) (body i)) :
    ∀ k i, Gives X I (fun _ _ => True) (Comp.loop body i k)
  | 0, _ => pure fun _ _ => trivial
  | k + 1, i => seq (hb i) (loop hb k (i + 1))

lemma forEach {body : α → Comp ε σ Unit} (hb : ∀ a, Gives X I (fun _ _ => True) (body a)) :
    ∀ l : List α, Gives X I (fun _ _ => True) (Comp.forEach body l)
  | [] => pure fun _ _ => trivial
  | a :: l => seq (hb a) (forEach hb l)

section

variable [hX : Exits.Of I X]

lemma raise (e : ε) : Gives X I P (Comp.raise e : Comp ε σ α) := fun s hs => (hX.err e s).mpr hs

lemma halt (w : Stop) : Gives X I P (Comp.halt w : Comp ε σ α) := fun s hs => hX.stop w s hs

lemma require (p : Prop) [Decidable p] :
    Gives X I (fun _ _ => p) (Comp.require p : Comp ε σ Unit) := fun s hs =>
  wp_require.mpr ⟨fun hp => ⟨hs, hp⟩, fun _ => hX.stop _ s hs⟩

/-- Where what has been checked does not matter. -/
lemma check (p : Prop) [Decidable p] :
    Gives X I (fun _ _ => True) (Comp.require p : Comp ε σ Unit) := (require p).keeps

lemma need (w : Stop) (o : Option α) :
    Gives X I (fun a _ => o = some a) (Comp.need w o : Comp ε σ α) := fun s hs =>
  wp_need.mpr ⟨fun _ ha => ⟨hs, ha⟩, fun _ => hX.stop _ s hs⟩

lemma attempt (hm : Gives X I P m) :
    Gives X I (fun r t => ∀ a, r = .ok a → P a t) (Comp.attempt m) := fun s hs =>
  wp_attempt.mpr (wp_mono (hm s hs) (fun _ _ ht => ⟨ht.1, fun _ h => by cases h; exact ht.2⟩)
    (fun e t ht => ⟨(hX.err e t).mp ht, nofun⟩))

lemma onErr {h : Comp ε σ Unit} (hm : Gives X I P m) (hh : Gives X I (fun _ _ => True) h) :
    Gives X I P (Comp.onErr m h) := fun s hs =>
  wp_onErr.mpr (wp_mono (hm s hs) (fun _ _ => id)
    (fun e t ht => wp_mono (hh t ((hX.err e t).mp ht)) (fun _ u hu => (hX.err _ u).mpr hu.1)
      (fun _ _ => id)))

end

/-! ### Runs that stop -/

/-- What every step keeps. -/
lemma of_steps {R : σ → σ → Prop} (hm : Steps R m) (hI : ∀ s s', R s s' → I s → I s') :
    Keeps I m := fun _ hs => wp_post (hm.wp_keeps hI hs) fun _ _ ht => ⟨ht, trivial⟩

lemma next (hm : Gives (.both I) I P m) (hs : I s) (hn : m.next s = some s') : I s' :=
  next_of_wp (wp_post (hm s hs) fun _ _ ht => ht.1) hn

variable {J : τ → Prop}

/-- An invariant of a part of the state. -/
lemma zoom {p : α → τ → Prop} {g : σ → τ} {f : τ → σ → σ} {m : Comp ε τ α}
    (hm : Gives (.all J) J p m) (hIJ : ∀ s, I s → J (g s))
    (hJI : ∀ s t, I s → J t → I (f t s)) (hP : ∀ s t a, I s → J t → p a t → P a (f t s)) :
    Gives (.all I) I P (Comp.zoom g f m) := fun s hs =>
  wp_zoom.mpr (wp_imp (hm (g s) (hIJ s hs))
    (fun a t ht => ⟨hJI s t hs ht.1, hP s t a hs ht.1 ht.2⟩) (fun _ t ht => hJI s t hs ht)
    fun _ t ht => hJI s t hs ht)

lemma part {g : σ → τ} {f : τ → σ → σ} {m : Comp ε τ α} (hm : Stays J m)
    (hIJ : ∀ s, I s → J (g s)) (hJI : ∀ s t, I s → J t → I (f t s)) : Stays I (Comp.zoom g f m) :=
  zoom hm hIJ hJI fun _ _ _ _ _ _ => trivial

/-- A part that a pointer leads to, where writing it keeps what is to hold beside it. -/
lemma focus {γ : Type} {r : Ptr σ γ} {J : γ → Prop} {K : τ → Prop} {m : Comp ε (γ × τ) α}
    (hm : Stays (fun s : γ × τ => J s.1 ∧ K s.2) m) (hget : ∀ s, I s → J (r.get s))
    (hset : ∀ s a, I s → J a → I (r.set a s)) :
    Stays (fun s : σ × τ => I s.1 ∧ K s.2) (Comp.focus r m) :=
  part hm (fun s h => ⟨hget s.1 h.1, h.2⟩) fun s t h h' => ⟨hset s.1 t.1 h.1 h'.1, h'.2⟩

end Gives

end Corey.Comp
