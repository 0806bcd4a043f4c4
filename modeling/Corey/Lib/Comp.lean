import Mathlib.Tactic.Common

/-!
Computations over a state that end with a value, with an error code, or not at all.

An error leaves the state as it was when the error was raised: nothing is rolled back, as in
a C function that returns a negative number halfway through. A computation that stops has no
successor; the ways to stop are told apart because a development may want to prove some of
them impossible.
-/

namespace Corey.Comp

/-- Why no next state exists: a failed assertion, a pointer to an object that is gone, an
object used as one of another type, a wait for something only another party can do. -/
inductive Stop | panic | gone | badType | spin
  deriving DecidableEq, Repr

inductive Outcome (ε α : Type)
  | ok (a : α)
  | err (e : ε)
  | stop (w : Stop)
  deriving DecidableEq, Repr

end Corey.Comp

namespace Corey

open Corey.Comp

def Comp (ε σ α : Type) : Type := σ → Outcome ε α × σ

end Corey

namespace Corey.Comp

variable {ε σ τ α β : Type}

def bind (m : Comp ε σ α) (f : α → Comp ε σ β) : Comp ε σ β := fun s =>
  match m s with
  | (.ok a, s') => f a s'
  | (.err e, s') => (.err e, s')
  | (.stop w, s') => (.stop w, s')

instance : Monad (Comp ε σ) where
  pure a := fun s => (.ok a, s)
  bind := bind

def state : Comp ε σ σ := fun s => (.ok s, s)
def put (s : σ) : Comp ε σ Unit := fun _ => (.ok (), s)
def change (f : σ → σ) : Comp ε σ Unit := fun s => (.ok (), f s)
def raise (e : ε) : Comp ε σ α := fun s => (.err e, s)
def halt (w : Stop) : Comp ε σ α := fun s => (.stop w, s)
def require (p : Prop) [Decidable p] : Comp ε σ Unit := if p then pure () else halt .panic

/-- The value of an option, or a stop where there is none. -/
def need (w : Stop) : Option α → Comp ε σ α
  | some a => pure a
  | none => halt w

/-- The code to run when `m` returns an error, which is then returned all the same. -/
def onErr (m : Comp ε σ α) (h : Comp ε σ Unit) : Comp ε σ α := fun s =>
  match m s with
  | (.err e, s') =>
    match h s' with
    | (.ok _, s'') => (.err e, s'')
    | (.err e', s'') => (.err e', s'')
    | (.stop w, s'') => (.stop w, s'')
  | r => r

/-- The error code of `m` as a value: what a caller sees that looks at the result itself. -/
def attempt (m : Comp ε σ α) : Comp ε σ (Except ε α) := fun s =>
  match m s with
  | (.ok a, s') => (.ok (.ok a), s')
  | (.err e, s') => (.ok (.error e), s')
  | (.stop w, s') => (.stop w, s')

/-- Run on a part of the state. -/
def zoom (g : σ → τ) (p : τ → σ → σ) (m : Comp ε τ α) : Comp ε σ α := fun s =>
  ((m (g s)).1, p (m (g s)).2 s)

/-- `body i, body (i + 1), …`, `k` times. -/
def loop (body : ℕ → Comp ε σ Unit) : ℕ → ℕ → Comp ε σ Unit
  | _, 0 => pure ()
  | i, k + 1 => do body i; loop body (i + 1) k

/-- Run `f` on each element in turn. -/
def forEach (f : α → Comp ε σ Unit) : List α → Comp ε σ Unit
  | [] => pure ()
  | a :: l => do f a; forEach f l

/-- A place in a state of type `σ` where a value of type `α` is kept. -/
structure Ptr (σ α : Type) where
  get : σ → α
  set : α → σ → σ

namespace Ptr

def self : Ptr σ σ := ⟨id, fun a _ => a⟩
def fst : Ptr (σ × τ) σ := ⟨Prod.fst, fun a s => (a, s.2)⟩
def snd : Ptr (σ × τ) τ := ⟨Prod.snd, fun a s => (s.1, a)⟩

def index {ι : Type} [DecidableEq ι] {α : ι → Type} (i : ι) : Ptr (∀ i, α i) (α i) :=
  ⟨fun f => f i, fun a f => Function.update f i a⟩

def comp (r : Ptr σ τ) (q : Ptr τ α) : Ptr σ α :=
  ⟨fun s => q.get (r.get s), fun a s => r.set (q.set a (r.get s)) s⟩

/-- Two places at once. Where they are one place, the second write wins. -/
def both (r : Ptr σ α) (q : Ptr σ β) : Ptr σ (α × β) :=
  ⟨fun s => (r.get s, q.get s), fun a s => q.set a.2 (r.set a.1 s)⟩

end Ptr

/-- Run on what `r` points to, beside a state `τ` that all parts share. -/
def focus (r : Ptr σ α) (m : Comp ε (α × τ) β) : Comp ε (σ × τ) β :=
  zoom (fun s => (r.get s.1, s.2)) (fun t s => (r.set t.1 s.1, t.2)) m

def shared (m : Comp ε τ β) : Comp ε (σ × τ) β :=
  zoom Prod.snd (fun t s => (s.1, t)) m

/-- What has to hold when a computation leaves by an error or by a stop. -/
structure Exits (ε σ : Type) where
  err : ε → σ → Prop
  stop : Stop → σ → Prop

/-- The exits seen from a state that is a part of another one. -/
@[reducible] def Exits.comap (X : Exits ε σ) (f : τ → σ) : Exits ε τ where
  err e t := X.err e (f t)
  stop w t := X.stop w (f t)

/-- There is no error; a stop may happen. -/
@[reducible] def Exits.mayStop : Exits ε σ where
  err _ _ := False
  stop _ _ := True

/-- There is no error and no stop. -/
@[reducible] def Exits.never : Exits ε σ where
  err _ _ := False
  stop _ _ := False

/-- Nothing is asked of runs that do not return. -/
@[reducible] def Exits.any : Exits ε σ where
  err _ _ := True
  stop _ _ := True

/-- `m`, run from `s`, ends with `Q`, or leaves through `X`. -/
def wp (m : Comp ε σ α) (Q : α → σ → Prop) (X : Exits ε σ) (s : σ) : Prop :=
  match m s with
  | (.ok a, s') => Q a s'
  | (.err e, s') => X.err e s'
  | (.stop w, s') => X.stop w s'

variable {m : Comp ε σ α} {Q Q' : α → σ → Prop} {X X' : Exits ε σ} {s t : σ} {f : α → Comp ε σ β}
  {w : Stop} {a : α} {e : ε}

@[simp] lemma wp_pure (a : α) : wp (pure a : Comp ε σ α) Q X s ↔ Q a s := Iff.rfl
@[simp] lemma wp_state {Q : σ → σ → Prop} : wp (state : Comp ε σ σ) Q X s ↔ Q s s := Iff.rfl
@[simp] lemma wp_put {Q : Unit → σ → Prop} (t : σ) : wp (put t) Q X s ↔ Q () t := Iff.rfl
@[simp] lemma wp_change {Q : Unit → σ → Prop} (f : σ → σ) :
    wp (change f) Q X s ↔ Q () (f s) := Iff.rfl
@[simp] lemma wp_raise (e : ε) : wp (raise e : Comp ε σ α) Q X s ↔ X.err e s := Iff.rfl
@[simp] lemma wp_halt (w : Stop) : wp (halt w : Comp ε σ α) Q X s ↔ X.stop w s := Iff.rfl

@[simp] lemma wp_bind {Q : β → σ → Prop} :
    wp (m >>= f) Q X s ↔ wp m (fun a t => wp (f a) Q X t) X s := by
  show wp (bind m f) Q X s ↔ _
  simp only [wp, bind]
  rcases m s with ⟨_ | _ | _, _⟩ <;> rfl

@[simp] lemma wp_seq {m : Comp ε σ Unit} {f : Comp ε σ β} {Q : β → σ → Prop} :
    wp (do m; f) Q X s ↔ wp m (fun _ t => wp f Q X t) X s := wp_bind

@[simp] lemma wp_require {p : Prop} [Decidable p] {Q : Unit → σ → Prop} :
    wp (require p) Q X s ↔ (p → Q () s) ∧ (¬ p → X.stop .panic s) := by
  by_cases h : p <;> simp [require, h]

@[simp] lemma wp_need {o : Option α} :
    wp (need w o) Q X s ↔ (∀ a, o = some a → Q a s) ∧ (o = none → X.stop w s) := by
  cases o <;> simp [need]

lemma wp_ite {c : Prop} [Decidable c] {m' : Comp ε σ α} :
    wp (if c then m else m') Q X s ↔ (c → wp m Q X s) ∧ (¬ c → wp m' Q X s) := by
  by_cases h : c <;> simp [h]

lemma wp_zoom {g : σ → τ} {p : τ → σ → σ} {m : Comp ε τ α} :
    wp (zoom g p m) Q X s ↔ wp m (fun a t => Q a (p t s)) (X.comap fun t => p t s) (g s) := by
  simp only [wp, zoom]
  rcases m (g s) with ⟨_ | _ | _, _⟩ <;> rfl

lemma wp_focus {r : Ptr σ α} {m : Comp ε (α × τ) β} {Q : β → σ × τ → Prop}
    {X : Exits ε (σ × τ)} {s : σ × τ} :
    wp (focus r m) Q X s ↔
      wp m (fun b t => Q b (r.set t.1 s.1, t.2)) (X.comap fun t => (r.set t.1 s.1, t.2))
        (r.get s.1, s.2) := wp_zoom

lemma wp_shared {m : Comp ε τ β} {Q : β → σ × τ → Prop} {X : Exits ε (σ × τ)} {s : σ × τ} :
    wp (shared m) Q X s ↔ wp m (fun b t => Q b (s.1, t)) (X.comap fun t => (s.1, t)) s.2 := wp_zoom

lemma wp_attempt {Q : Except ε α → σ → Prop} :
    wp (attempt m) Q X s ↔ wp m (fun a => Q (.ok a)) { X with err := fun e => Q (.error e) } s := by
  simp only [wp, attempt]
  rcases m s with ⟨_ | _ | _, _⟩ <;> rfl

lemma wp_onErr {h : Comp ε σ Unit} :
    wp (onErr m h) Q X s ↔
      wp m Q { X with err := fun e t => wp h (fun _ u => X.err e u) X t } s := by
  simp only [wp, onErr]
  rcases m s with ⟨_ | _ | _, t⟩
  · rfl
  · rcases hh : h t with ⟨_ | _ | _, _⟩ <;> simp only [hh]
  · rfl

/-- The rules of the plain commands, as one set. -/
lemma wp_rules :
    (∀ {ε σ α : Type} {a : α} {Q X s}, wp (pure a : Comp ε σ α) Q X s ↔ Q a s) ∧
    (∀ {ε σ : Type} {Q X s}, wp (state : Comp ε σ σ) Q X s ↔ Q s s) ∧
    (∀ {ε σ : Type} {f : σ → σ} {Q X s}, wp (change f : Comp ε σ Unit) Q X s ↔ Q () (f s)) ∧
    (∀ {ε σ α : Type} {e : ε} {Q X s}, wp (raise e : Comp ε σ α) Q X s ↔ X.err e s) ∧
    (∀ {ε σ α β : Type} {m : Comp ε σ α} {f : α → Comp ε σ β} {Q X s},
      wp (m >>= f) Q X s ↔ wp m (fun a t => wp (f a) Q X t) X s) ∧
    (∀ {ε σ : Type} {p : Prop} [Decidable p] {Q X s},
      wp (require p : Comp ε σ Unit) Q X s ↔ (p → Q () s) ∧ (¬ p → X.stop .panic s)) ∧
    (∀ {ε σ α : Type} {w} {o : Option α} {Q X s}, wp (need w o : Comp ε σ α) Q X s ↔
      (∀ a, o = some a → Q a s) ∧ (o = none → X.stop w s)) ∧
    ∀ {ε σ α : Type} {c : Prop} [Decidable c] {m m' : Comp ε σ α} {Q X s},
      wp (if c then m else m') Q X s ↔ (c → wp m Q X s) ∧ (¬ c → wp m' Q X s) :=
  ⟨wp_pure _, wp_state, wp_change _, wp_raise _, wp_bind, wp_require, wp_need, wp_ite⟩

lemma wp_imp (h : wp m Q X s) (hQ : ∀ a t, Q a t → Q' a t) (he : ∀ e t, X.err e t → X'.err e t)
    (hs : ∀ w t, X.stop w t → X'.stop w t) : wp m Q' X' s := by
  simp only [wp] at h ⊢
  rcases hm : m s with ⟨_ | _ | _, _⟩ <;> rw [hm] at h
  · exact hQ _ _ h
  · exact he _ _ h
  · exact hs _ _ h

/-- The stops `p` are among the stops `q`: as a rule they are excluded, or left as they are, or
allowed. -/
class StopsIn (p q : Stop → σ → Prop) : Prop where
  stop : ∀ w t, p w t → q w t

instance (p : Stop → σ → Prop) : StopsIn p p := ⟨fun _ _ => id⟩
instance (p : Stop → σ → Prop) : StopsIn p fun _ _ => True := ⟨fun _ _ _ => trivial⟩
instance (p : Stop → σ → Prop) : StopsIn (fun _ _ => False) p := ⟨fun _ _ => False.elim⟩

lemma wp_mono [S : StopsIn X.stop X'.stop] (h : wp m Q X s) (hQ : ∀ a t, Q a t → Q' a t)
    (he : ∀ e t, X.err e t → X'.err e t) : wp m Q' X' s :=
  wp_imp h hQ he S.stop

lemma wp_post (h : wp m Q X s) (hQ : ∀ a t, Q a t → Q' a t) : wp m Q' X s :=
  wp_mono h hQ fun _ _ => id

lemma wp_of_never (h : wp m Q Exits.never s) (hQ : ∀ a t, Q a t → Q' a t) : wp m Q' X s :=
  wp_mono h hQ fun _ _ => False.elim

/-- What holds whatever happens. -/
lemma wp_of_forall (hQ : ∀ a t, Q a t) (he : ∀ e t, X.err e t) (hs : ∀ w t, X.stop w t) :
    wp m Q X s := by
  simp only [wp]
  rcases m s with ⟨_ | _ | _, _⟩
  · exact hQ _ _
  · exact he _ _
  · exact hs _ _

lemma wp_any_of (hQ : ∀ a t, Q a t) : wp m Q Exits.any s :=
  wp_of_forall hQ (fun _ _ => trivial) fun _ _ => trivial

/-- Of a run that ends with a value, whatever its other exits. -/
lemma wp_weaken (h : wp m Q X s) (hQ : ∀ a t, Q a t → Q' a t) : wp m Q' Exits.any s :=
  wp_mono h hQ fun _ _ _ => trivial

/-- Two things shown of one run hold together. -/
lemma wp_and (h : wp m Q X s) (h' : wp m Q' X' s) :
    wp m (fun a t => Q a t ∧ Q' a t)
      ⟨fun e t => X.err e t ∧ X'.err e t, fun w t => X.stop w t ∧ X'.stop w t⟩ s := by
  simp only [wp] at h h' ⊢
  rcases hm : m s with ⟨_ | _ | _, _⟩ <;> rw [hm] at h h' <;> exact ⟨h, h'⟩

/-- A postcondition read off a run that is known to have ended with a value. -/
lemma wp_ok (h : wp m Q X s) (hm : m s = (.ok a, t)) : Q a t := by
  simpa only [wp, hm] using h

lemma wp_of_ok (hm : m s = (.ok a, t)) (h : Q a t) : wp m Q X s := by
  simpa only [wp, hm] using h

lemma wp_err (h : wp m Q X s) (hm : m s = (.err e, t)) : X.err e t := by
  simpa only [wp, hm] using h

/-- The second part of a computation, of which it is known what the first part has done. -/
lemma wp_bind_run {R : β → σ → Prop} (h : wp m Q X s)
    (hf : ∀ a t, m s = (.ok a, t) → Q a t → wp (f a) R X t) : wp (m >>= f) R X s := by
  rw [wp_bind]
  simp only [wp] at h ⊢
  rcases hm : m s with ⟨_ | _ | _, t⟩ <;> rw [hm] at h
  · exact hf _ _ hm h
  · exact h
  · exact h

/-- A computation that ends well does so in each of its parts. -/
lemma bind_eq_ok {b : β} (h : (m >>= f) s = (.ok b, t)) :
    ∃ a u, m s = (.ok a, u) ∧ f a u = (.ok b, t) := by
  change Comp.bind m f s = _ at h
  rw [Comp.bind] at h
  rcases hms : m s with ⟨a | e | w, u⟩ <;> rw [hms] at h
  · exact ⟨a, u, rfl, h⟩
  · exact nomatch h
  · exact nomatch h

lemma onErr_eq_ok {h : Comp ε σ Unit} (hm : onErr m h s = (.ok a, t)) : m s = (.ok a, t) := by
  rw [onErr] at hm
  rcases hms : m s with ⟨b | e | w, u⟩ <;> rw [hms] at hm
  · exact hm
  · dsimp only at hm
    rcases hhu : h u with ⟨_ | _ | _, _⟩ <;> rw [hhu] at hm <;> exact nomatch hm
  · exact nomatch hm

lemma bind_of_ok (h : m s = (.ok a, t)) : (m >>= f) s = f a t := by
  show Comp.bind m f s = _
  rw [Comp.bind, h]

/-- What holds at every exit holds of the state that is left behind. -/
lemma state_of_wp {I : σ → Prop} (h : wp m (fun _ => I) ⟨fun _ => I, fun _ => I⟩ s) :
    I (m s).2 := by
  simp only [wp] at h
  rcases hm : m s with ⟨_ | _ | _, t⟩ <;> simpa only [hm] using h

/-- A computation that counts when it leaves early has ended well if nothing was counted. -/
lemma ok_of_wp {f : σ → ℕ} (h : wp m Q ⟨fun _ t => f s < f t, fun _ t => f s < f t⟩ s)
    (hf : f (m s).2 = f s) : ∃ a t, m s = (.ok a, t) ∧ Q a t := by
  simp only [wp] at h
  rcases hm : m s with ⟨a | _ | _, t⟩ <;> simp only [hm] at h hf
  · exact ⟨a, t, rfl, h⟩
  · omega
  · omega

lemma ok_of_never (h : wp m Q Exits.never s) : ∃ a t, m s = (.ok a, t) ∧ Q a t := by
  simp only [wp] at h
  rcases hm : m s with ⟨a | _ | _, t⟩ <;> simp only [hm] at h
  exact ⟨a, t, rfl, h⟩

lemma eq_of_wp (h : wp m (fun b u => b = a ∧ u = t) Exits.never s) : m s = (.ok a, t) := by
  simp only [wp] at h
  rcases hm : m s with ⟨_ | _ | _, u⟩ <;> simp only [hm] at h
  rw [h.1, h.2]

lemma eq_err_of_wp (h : wp m (fun _ _ => False) ⟨fun v u => v = e ∧ u = t, fun _ _ => False⟩ s) :
    m s = (.err e, t) := by
  simp only [wp] at h
  rcases hm : m s with ⟨_ | _ | _, u⟩ <;> simp only [hm] at h
  rw [h.1, h.2]

lemma eq_stop_of_wp (h : wp m (fun _ _ => False) ⟨fun _ _ => False, fun v u => v = w ∧ u = t⟩ s) :
    m s = (.stop w, t) := by
  simp only [wp] at h
  rcases hm : m s with ⟨_ | _ | _, u⟩ <;> simp only [hm] at h
  rw [h.1, h.2]

/-- The invariant rule: an invariant that each round takes from its index to the next is
taken by the loop from the first index to the last. -/
lemma wp_loop {body : ℕ → Comp ε σ Unit} (I : ℕ → σ → Prop) :
    ∀ (k i : ℕ) (s : σ), I i s →
      (∀ j t, i ≤ j → j < i + k → I j t → wp (body j) (fun _ => I (j + 1)) X t) →
      wp (loop body i k) (fun _ => I (i + k)) X s
  | 0, _, _, h0, _ => h0
  | k + 1, i, s, h0, hstep => by
    rw [loop, wp_seq]
    refine wp_post (hstep i s (Nat.le_refl i) (by omega) h0) fun _ t ht => ?_
    rw [show i + (k + 1) = i + 1 + k by omega]
    exact wp_loop I k (i + 1) t ht fun j u h1 h2 => hstep j u (by omega) (by omega)

end Corey.Comp
