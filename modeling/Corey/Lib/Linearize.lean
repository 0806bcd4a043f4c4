import Mathlib.Logic.Function.Basic

/-!
Linearizability.

A history is the list of the calls and returns of some threads. It is linearizable to a sequential
object if points can be put into it, one for every call that returns and maybe for some that do
not: between a call and its return, such that the object, used by the calls in the order of their
points, gives the results that are returned.
-/

open Function

namespace Corey

variable {T σ ο ρ : Type}

/-- A sequential object: what an operation returns, and what it makes of the state. -/
structure Object (σ ο ρ : Type) where
  apply : ο → σ → ρ × σ

namespace Object

inductive Event (T ο ρ : Type)
  | call (t : T) (o : ο)
  | point (t : T)
  | ret (t : T) (r : ρ)

/-- The points are not part of a history. -/
def Event.visible : Event T ο ρ → Bool
  | .point _ => false
  | _ => true

/-- What a thread is doing: nothing, a call before its point, or one behind it. -/
inductive Stage (ο ρ : Type)
  | idle
  | called (o : ο)
  | done (r : ρ)

variable [DecidableEq T]

/-- The threads and the object take part in an event. -/
inductive Follows (O : Object σ ο ρ) :
    (T → Stage ο ρ) × σ → Event T ο ρ → (T → Stage ο ρ) × σ → Prop
  | call {st : T → Stage ο ρ} {x : σ} {t : T} {o : ο} (h : st t = .idle) :
    Follows O (st, x) (.call t o) (update st t (.called o), x)
  | point {st : T → Stage ο ρ} {x : σ} {t : T} {o : ο} (h : st t = .called o) :
    Follows O (st, x) (.point t) (update st t (.done (O.apply o x).1), (O.apply o x).2)
  | ret {st : T → Stage ο ρ} {x : σ} {t : T} {r : ρ} (h : st t = .done r) :
    Follows O (st, x) (.ret t r) (update st t .idle, x)

/-- The state after a list of events, if they are such as they should be. -/
inductive Trace (O : Object σ ο ρ) (x : σ) : List (Event T ο ρ) → (T → Stage ο ρ) × σ → Prop
  | nil : Trace O x [] (fun _ => .idle, x)
  | snoc {tr : List (Event T ο ρ)} {s s' : (T → Stage ο ρ) × σ} {e : Event T ο ρ}
    (h : Trace O x tr s) (he : Follows O s e s') : Trace O x (tr ++ [e]) s'

/-- The history `hist` of an object that was in state `x` at the start. -/
def Linearizable (O : Object σ ο ρ) (x : σ) (hist : List (Event T ο ρ)) : Prop :=
  ∃ tr s, O.Trace x tr s ∧ tr.filter Event.visible = hist

/-- The same, with the state that has been reached. -/
def Recorded (O : Object σ ο ρ) (x : σ) (hist : List (Event T ο ρ)) (st : T → Stage ο ρ) (y : σ) :
    Prop :=
  ∃ tr, O.Trace x tr (st, y) ∧ tr.filter Event.visible = hist

namespace Recorded

variable {O : Object σ ο ρ} {x y : σ} {hist : List (Event T ο ρ)} {st st' : T → Stage ο ρ} {t : T}
  {o : ο} {r : ρ}

lemma linearizable (h : O.Recorded x hist st y) : O.Linearizable x hist := by
  obtain ⟨tr, htr, hhist⟩ := h
  exact ⟨tr, (st, y), htr, hhist⟩

lemma start : O.Recorded x ([] : List (Event T ο ρ)) (fun _ => .idle) x := ⟨[], .nil, rfl⟩

lemma call (h : O.Recorded x hist st y) (ht : st t = .idle) :
    O.Recorded x (hist ++ [.call t o]) (update st t (.called o)) y := by
  obtain ⟨tr, htr, rfl⟩ := h
  exact ⟨tr ++ [.call t o], htr.snoc (.call ht), List.filter_append _ _⟩

lemma point (h : O.Recorded x hist st y) (ht : st t = .called o) :
    O.Recorded x hist (update st t (.done (O.apply o y).1)) (O.apply o y).2 := by
  obtain ⟨tr, htr, rfl⟩ := h
  refine ⟨tr ++ [.point t], htr.snoc (.point ht), ?_⟩
  rw [List.filter_append]
  exact List.append_nil _

lemma ret (h : O.Recorded x hist st y) (ht : st t = .done r) :
    O.Recorded x (hist ++ [.ret t r]) (update st t .idle) y := by
  obtain ⟨tr, htr, rfl⟩ := h
  exact ⟨tr ++ [.ret t r], htr.snoc (.ret ht), List.filter_append _ _⟩

end Recorded

end Object

end Corey
