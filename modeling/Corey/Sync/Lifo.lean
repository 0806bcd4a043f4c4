import Corey.Lib.Linearize
import Corey.Lib.Threads

/-!
The lock-free stack (`inc/lifo.h`).

A pop reads the first element, the count of the pops so far and the element's successor, one after
the other, and then replaces the first element by the successor if both the first element and the
count are still what they were. A push does not change the count. If the first element is read
before, and the count after, the element has been popped and the next one has, too, then the
element may be back at the top when the successor that has been read is long gone.
-/

namespace Corey.Sync.Lifo

open Function Corey.Threads List

variable {T E : Type}

/-! ### The code -/

inductive Op (E : Type)
  | push (e : E)
  | pop

abbrev Event (T E : Type) := Object.Event T (Op E) (Option E)

/-- The head, the links of the elements, and the history of the calls. -/
structure Head (T E : Type) where
  first : Option E
  count : BitVec 64 := 0
  next : E → Option E
  hist : List (Event T E) := []

/-- The next access to memory of a thread. -/
inductive Pc (E : Type)
  | idle
  /-- `LIFO_PUSH`: the first element is read -/
  | pushLoad (e : E)
  /-- `LIFO_PUSH`: the link is written -/
  | pushStore (e : E) (f : Option E)
  /-- `LIFO_PUSH`: the link is read -/
  | pushRead (e : E)
  /-- `LIFO_PUSH`: the compare-and-swap -/
  | pushCas (e : E) (f : Option E)
  | pushDone
  /-- `LIFO_POP`: the first element is read -/
  | popFirst
  /-- `LIFO_POP`: the count is read -/
  | popCount (f : Option E)
  /-- `LIFO_POP`: the link of the first element is read -/
  | popNext (f : E) (n : BitVec 64)
  /-- `LIFO_POP`: the compare-and-swap of both words -/
  | popCas (f : E) (n : BitVec 64) (x : Option E)
  | popDone (r : Option E)

structure Thread (E : Type) where
  pc : Pc E := .idle
  owns : E → Bool

/-- The next step of thread `t`. A thread pushes only what it owns. -/
def act [DecidableEq E] (t : T) (op : Op E) (m : Head T E) (l : Thread E) :
    Option (Head T E × Thread E) :=
  match l.pc with
  | .idle =>
    match op with
    | .push e =>
      if l.owns e then
        some ({ m with hist := m.hist ++ [.call t (.push e)] }, { l with pc := .pushLoad e })
      else none
    | .pop => some ({ m with hist := m.hist ++ [.call t .pop] }, { l with pc := .popFirst })
  | .pushLoad e => some (m, { l with pc := .pushStore e m.first })
  | .pushStore e f =>
    some ({ m with next := update m.next e f }, { l with pc := .pushRead e })
  | .pushRead e => some (m, { l with pc := .pushCas e (m.next e) })
  | .pushCas e f =>
    if m.first = f then
      some ({ m with first := some e }, ⟨.pushDone, update l.owns e false⟩)
    else some (m, { l with pc := .pushLoad e })
  | .pushDone => some ({ m with hist := m.hist ++ [.ret t none] }, { l with pc := .idle })
  | .popFirst => some (m, { l with pc := .popCount m.first })
  | .popCount none => some (m, { l with pc := .popDone none })
  | .popCount (some f) => some (m, { l with pc := .popNext f m.count })
  | .popNext f n => some (m, { l with pc := .popCas f n (m.next f) })
  | .popCas f n x =>
    if m.first = some f ∧ m.count = n then
      some ({ m with first := x, count := n + 1 },
        ⟨.popDone (some f), update l.owns f true⟩)
    else some (m, { l with pc := .popFirst })
  | .popDone r => some ({ m with hist := m.hist ++ [.ret t r] }, { l with pc := .idle })

/-! ### What the stack should do -/

/-- The elements of `l` can be reached, in this order and no others. -/
def Chain (next : E → Option E) : Option E → List E → Prop
  | none, [] => True
  | some e, e' :: l => e = e' ∧ Chain next (next e) l
  | _, _ => False

instance Chain.decidable [DecidableEq E] (next : E → Option E) :
    ∀ (o : Option E) (l : List E), Decidable (Chain next o l)
  | none, [] => .isTrue trivial
  | none, _ :: _ => .isFalse id
  | some _, [] => .isFalse id
  | some e, e' :: l =>
    have := Chain.decidable next (next e) l
    inferInstanceAs (Decidable (e = e' ∧ Chain next (next e) l))

/-- Every element is in the stack, or owned by one thread. -/
def Partition (s : Threads T (Head T E) (Thread E)) (l : List E) : Prop :=
  Chain s.mem.next s.mem.first l ∧ l.Nodup ∧
    ∀ e, (e ∈ l ∧ ∀ t, (s.loc t).owns e = false) ∨ (e ∉ l ∧ ∃! t, (s.loc t).owns e = true)

def stack (E : Type) : Object (List E) (Op E) (Option E) where
  apply
    | .push e, l => (none, e :: l)
    | .pop, l => (l.head?, l.tail)

/-- The threads with a stack that has the elements of `start`, from the top. -/
def lifo (T : Type) [DecidableEq T] [DecidableEq E] (start : List E) :
    System (Threads T (Head T E) (Thread E)) (T × Op E) :=
  interleaving (fun s => Partition s start ∧ s.mem.hist = [] ∧ ∀ t, (s.loc t).pc = .idle) act

structure Sound [DecidableEq T] (start : List E) (s : Threads T (Head T E) (Thread E)) : Prop where
  partition : ∃ l, Partition s l
  linearizable : (stack E).Linearizable start s.mem.hist

/-- A compare-and-swap of a pop that succeeds has read the present successor. -/
def Current (s : Threads T (Head T E) (Thread E)) (a : T × Op E) : Prop :=
  match (s.loc a.1).pc with
  | .popCas f n x => s.mem.first = some f ∧ s.mem.count = n → x = s.mem.next f
  | _ => True

instance Current.decidable [DecidableEq E] (s : Threads T (Head T E) (Thread E)) (a : T × Op E) :
    Decidable (Current s a) :=
  match h : (s.loc a.1).pc with
  | .popCas f n x => decidable_of_iff (s.mem.first = some f ∧ s.mem.count = n → x = s.mem.next f)
      (by rw [Current, h])
  | .idle | .pushLoad _ | .pushStore _ _ | .pushRead _ | .pushCas _ _ | .pushDone | .popFirst
  | .popCount _ | .popNext _ _ | .popDone _ => .isTrue (by rw [Current, h]; trivial)

/-! ### Chains -/

variable {next : E → Option E} {o x : Option E} {e f : E} {l l' : List E}

lemma Chain.unique : ∀ {o : Option E} {l l' : List E}, Chain next o l → Chain next o l' → l = l'
  | none, [], [], _, _ => rfl
  | some e, a :: l, b :: l', h, h' => by
    obtain ⟨rfl, h⟩ := h
    obtain ⟨rfl, h'⟩ := h'
    rw [h.unique h']

lemma Chain.split : ∀ {o : Option E} {l : List E}, Chain next o l → e ∈ l →
    ∃ l1 l2, l = l1 ++ e :: l2 ∧ Chain next (some e) (e :: l2)
  | none, [], _, he => absurd he not_mem_nil
  | some a, b :: l, h, he => by
    obtain ⟨rfl, h⟩ := h
    rcases mem_cons.mp he with rfl | he
    · exact ⟨[], l, rfl, rfl, h⟩
    · obtain ⟨l1, l2, rfl, h2⟩ := h.split he
      exact ⟨a :: l1, l2, rfl, h2⟩

lemma Chain.update [DecidableEq E] : ∀ {o : Option E} {l : List E}, Chain next o l → e ∉ l →
    Chain (update next e x) o l
  | none, [], _, _ => trivial
  | some a, b :: l, h, he => by
    obtain ⟨rfl, h⟩ := h
    rw [mem_cons, not_or] at he
    refine ⟨rfl, ?_⟩
    rw [update_of_ne (Ne.symm he.1)]
    exact h.update he.2

lemma Chain.eq_of_mem_iff (h : Chain next o l) (h' : Chain next x l') (hnd : l.Nodup)
    (hmem : ∀ a, a ∈ l' ↔ a ∈ l) : x = o := by
  rcases o with _ | r
  · cases l with
    | cons a l => exact h.elim
    | nil =>
      rcases x with _ | x
      · rfl
      · cases l' with
        | nil => exact h'.elim
        | cons a l' => exact absurd ((hmem a).mp mem_cons_self) not_mem_nil
  · cases l with
    | nil => exact h.elim
    | cons a l =>
      obtain rfl : r = a := h.1
      have hr : r ∈ l' := (hmem r).mpr mem_cons_self
      rcases x with _ | x
      · cases l' with
        | nil => exact absurd hr not_mem_nil
        | cons a l' => exact h'.elim
      · cases l' with
        | nil => exact h'.elim
        | cons b l' =>
          obtain rfl : x = b := h'.1
          -- the second chain is the end of the first one that starts at `x`
          obtain ⟨l1, l2, hl, htail⟩ := h.split ((hmem x).mp mem_cons_self)
          rw [h'.unique htail] at hr
          cases l1 with
          | nil => rw [(cons.inj hl).1]
          | cons c l1 =>
            obtain ⟨rfl, rfl⟩ := cons.inj hl
            exact absurd (mem_append_right l1 hr) (nodup_cons.mp hnd).1

/-! ### The invariant -/

variable {s s' : Threads T (Head T E) (Thread E)} {t u : T} {m : Head T E} {k : Thread E}
  {start : List E} {op : Op E}

/-- How far a call has come. A pop of an empty stack has its point where it reads the head. -/
def Pc.stage : Pc E → Object.Stage (Op E) (Option E)
  | .idle => .idle
  | .pushLoad e | .pushStore e _ | .pushRead e | .pushCas e _ => .called (.push e)
  | .pushDone | .popCount none => .done none
  | .popFirst | .popCount (some _) | .popNext _ _ | .popCas _ _ _ => .called .pop
  | .popDone r => .done r

def Pc.pushes : Pc E → Option E
  | .pushLoad e | .pushStore e _ | .pushRead e | .pushCas e _ => some e
  | _ => none

def stages (s : Threads T (Head T E) (Thread E)) (t : T) : Object.Stage (Op E) (Option E) :=
  (s.loc t).pc.stage

lemma Partition.congr (h : Partition s l) (hnext : s'.mem.next = s.mem.next)
    (hfirst : s'.mem.first = s.mem.first) (howns : ∀ u, (s'.loc u).owns = (s.loc u).owns) :
    Partition s' l := by
  simp only [Partition, hnext, hfirst, howns]
  exact h

lemma Partition.notMem (h : Partition s l) (ht : (s.loc t).owns e = true) : e ∉ l := by
  rcases h.2.2 e with ⟨-, hnone⟩ | ⟨hout, -⟩
  · exact absurd ((hnone t).symm.trans ht) Bool.false_ne_true
  · exact hout

lemma Partition.eq (h : Partition s l) (ht : (s.loc t).owns e = true)
    (hu : (s.loc u).owns e = true) : t = u := by
  rcases h.2.2 e with ⟨-, hnone⟩ | ⟨-, hone⟩
  · exact absurd ((hnone t).symm.trans ht) Bool.false_ne_true
  · exact hone.unique ht hu

lemma Partition.mem_iff (h : Partition s l) : e ∈ l ↔ ∀ t, (s.loc t).owns e = false := by
  rcases h.2.2 e with ⟨hin, hnone⟩ | ⟨hout, t, ht, -⟩
  · exact ⟨fun _ => hnone, fun _ => hin⟩
  · refine ⟨fun hin => absurd hin hout, fun hnone => ?_⟩
    exact absurd ((hnone t).symm.trans ht) Bool.false_ne_true

variable [DecidableEq T]

structure Inv (start l : List E) (s : Threads T (Head T E) (Thread E)) : Prop where
  partition : Partition s l
  recorded : (stack E).Recorded start s.mem.hist (stages s) l
  owned : ∀ t e, (s.loc t).pc.pushes = some e → (s.loc t).owns e = true
  linked : ∀ t e f, (s.loc t).pc = .pushCas e f → s.mem.next e = f

lemma Inv.sound (h : Inv start l s) : Sound start s := ⟨⟨l, h.partition⟩, h.recorded.linearizable⟩

lemma stages_set : stages (s.set t m k) = update (stages s) t k.pc.stage := by
  funext u
  rw [stages, set_loc_eq, update_apply]
  split_ifs <;> rfl

lemma Inv.plain (h : Inv start l s) (hnext : m.next = s.mem.next) (hfirst : m.first = s.mem.first)
    (howns : k.owns = (s.loc t).owns)
    (hrec : (stack E).Recorded start m.hist (update (stages s) t k.pc.stage) l)
    (howned : ∀ e, k.pc.pushes = some e → (s.loc t).owns e = true)
    (hlinked : ∀ e f, k.pc = .pushCas e f → s.mem.next e = f) : Inv start l (s.set t m k) where
  partition := h.partition.congr hnext hfirst fun u => by
    rw [set_loc_eq]
    split_ifs with hu
    · rw [howns, hu]
    · rfl
  recorded := by
    rw [stages_set]
    exact hrec
  owned u e hu := by
    rw [set_loc_eq] at hu ⊢
    split_ifs at hu ⊢ with htu
    · rw [howns]
      exact howned e hu
    · exact h.owned u e hu
  linked u e f hu := by
    rw [set_mem, hnext]
    rw [set_loc_eq] at hu
    split_ifs at hu with htu
    · exact hlinked e f hu
    · exact h.linked u e f hu

lemma Inv.quiet {old pc : Pc E} (h : Inv start l s) (hpc : (s.loc t).pc = old)
    (hstage : pc.stage = old.stage) (hpushes : pc.pushes = old.pushes)
    (hlinked : ∀ e f, pc = .pushCas e f → s.mem.next e = f) :
    Inv start l (s.set t s.mem { s.loc t with pc := pc }) := by
  subst hpc
  refine h.plain rfl rfl rfl ?_ (fun e he => ?_) hlinked
  · have hsame : update (stages s) t pc.stage = stages s := by
      rw [hstage]
      exact update_eq_self t (stages s)
    rw [hsame]
    exact h.recorded
  · rw [hpushes] at he
    exact h.owned t e he

section

variable [DecidableEq E]

lemma owns_set {pc : Pc E} {b : Bool} {a : E} :
    ((s.set t m ⟨pc, update (s.loc t).owns e b⟩).loc u).owns a =
      if u = t ∧ a = e then b else (s.loc u).owns a := by
  rw [set_loc_eq]
  by_cases hu : u = t
  · simp only [hu, if_true, update_apply, true_and]
  · rw [if_neg hu, if_neg fun h => hu h.1]

lemma Inv.pushStore (h : Inv start l s) (hpc : (s.loc t).pc = .pushStore e x) :
    Inv start l (s.set t { s.mem with next := update s.mem.next e x }
      { s.loc t with pc := .pushRead e }) := by
  have hown : (s.loc t).owns e = true := h.owned t e (by rw [hpc]; rfl)
  have hloc : ∀ u, ((s.set t { s.mem with next := update s.mem.next e x }
      { s.loc t with pc := .pushRead e }).loc u).owns = (s.loc u).owns := fun u => by
    rw [set_loc_eq]
    split_ifs with hu
    · rw [hu]
    · rfl
  refine ⟨?_, ?_, fun u e' hu => ?_, fun u e' f hu => ?_⟩
  · simp only [Partition, hloc]
    exact ⟨h.partition.1.update (h.partition.notMem hown), h.partition.2⟩
  · have hsame : update (stages s) t (Pc.pushRead e).stage = stages s := by
      have hstage : (Pc.pushRead e).stage = stages s t := by
        rw [stages, hpc]
        rfl
      rw [hstage]
      exact update_eq_self t (stages s)
    rw [stages_set, hsame]
    exact h.recorded
  · rw [hloc]
    rw [set_loc_eq] at hu
    split_ifs at hu with hut
    · obtain rfl := Option.some.inj hu
      rw [hut]
      exact hown
    · exact h.owned u e' hu
  · rw [set_loc_eq] at hu
    split_ifs at hu with hut
    have hne : e' ≠ e := by
      rintro rfl
      exact hut (h.partition.eq (h.owned u e' (by rw [hu]; rfl)) hown)
    exact (update_of_ne hne _ _).trans (h.linked u e' f hu)

lemma Inv.pushCas (h : Inv start l s) (hpc : (s.loc t).pc = .pushCas e x)
    (hfirst : s.mem.first = x) :
    Inv start (e :: l) (s.set t { s.mem with first := some e }
      ⟨.pushDone, update (s.loc t).owns e false⟩) := by
  have hown : (s.loc t).owns e = true := h.owned t e (by rw [hpc]; rfl)
  have hout := h.partition.notMem hown
  have hlink := h.linked t e x hpc
  obtain ⟨hchain, hnodup, hall⟩ := h.partition
  refine ⟨⟨⟨rfl, ?_⟩, nodup_cons.mpr ⟨hout, hnodup⟩, fun a => ?_⟩, ?_, fun u a hu => ?_,
    fun u a f hu => ?_⟩
  · show Chain s.mem.next (s.mem.next e) l
    rw [hlink, ← hfirst]
    exact hchain
  · by_cases hae : a = e
    · -- nobody owns the element any more
      refine .inl ⟨hae ▸ mem_cons_self, fun u => ?_⟩
      rw [owns_set]
      split_ifs with hu
      · rfl
      · rw [← Bool.not_eq_true]
        intro hua
        rw [hae] at hua
        exact hu ⟨h.partition.eq hua hown, hae⟩
    · have hold : ∀ u, ((s.set t { s.mem with first := some e }
          ⟨.pushDone, update (s.loc t).owns e false⟩).loc u).owns a = (s.loc u).owns a :=
        fun u => by rw [owns_set, if_neg fun hu => hae hu.2]
      simp only [hold, mem_cons, hae, false_or]
      exact hall a
  · rw [stages_set]
    exact h.recorded.point (o := .push e) (by rw [stages, hpc]; rfl)
  · have hut : u ≠ t := by
      rintro rfl
      rw [set_loc_self] at hu
      cases hu
    rw [owns_set, if_neg fun h => hut h.1]
    rw [set_loc_of_ne hut] at hu
    exact h.owned u a hu
  · rw [set_loc_eq] at hu
    split_ifs at hu with hut
    exact h.linked u a f hu

lemma Inv.popCas {n : BitVec 64} (h : Inv start l s) (hpc : (s.loc t).pc = .popCas f n x)
    (hfirst : s.mem.first = some f) (hx : x = s.mem.next f) :
    ∃ l', Inv start l' (s.set t { s.mem with first := x, count := n + 1 }
      ⟨.popDone (some f), update (s.loc t).owns f true⟩) := by
  obtain ⟨hchain, hnodup, hall⟩ := h.partition
  rw [hfirst] at hchain
  cases l with
  | nil => exact hchain.elim
  | cons a l =>
    obtain ⟨rfl, hchain⟩ := hchain
    obtain ⟨hout, hnodup⟩ := nodup_cons.mp hnodup
    refine ⟨l, ⟨?_, hnodup, fun a => ?_⟩, ?_, fun u a hu => ?_, fun u a g hu => ?_⟩
    · show Chain s.mem.next x l
      rw [hx]
      exact hchain
    · by_cases haf : a = f
      · -- the thread is the only one that owns the element
        refine .inr ⟨haf ▸ hout, t, ?_, fun u hu => ?_⟩
        · show ((s.set t _ _).loc t).owns a = true
          rw [owns_set, if_pos ⟨rfl, haf⟩]
        · rcases hall f with ⟨-, hnone⟩ | ⟨hnot, -⟩
          · by_contra hut
            have hold : (s.loc u).owns a = true := by
              simp only [owns_set, if_neg fun h : u = t ∧ a = f => hut h.1] at hu
              exact hu
            rw [haf, hnone u] at hold
            exact Bool.false_ne_true hold
          · exact absurd mem_cons_self hnot
      · have hold : ∀ u, ((s.set t { s.mem with first := x, count := n + 1 }
            ⟨.popDone (some f), update (s.loc t).owns f true⟩).loc u).owns a =
              (s.loc u).owns a := fun u => by rw [owns_set, if_neg fun hu => haf hu.2]
        have := hall a
        simp only [mem_cons, haf, false_or] at this
        simp only [hold]
        exact this
    · rw [stages_set]
      exact h.recorded.point (o := .pop) (by rw [stages, hpc]; rfl)
    · have hut : u ≠ t := by
        rintro rfl
        rw [set_loc_self] at hu
        cases hu
      rw [owns_set, if_neg fun h => hut h.1]
      rw [set_loc_of_ne hut] at hu
      exact h.owned u a hu
    · rw [set_loc_eq] at hu
      split_ifs at hu with hut
      exact h.linked u a g hu

lemma Inv.step (h : Inv start l s) (hok : Current s (t, op))
    (hact : act t op s.mem (s.loc t) = some (m, k)) : ∃ l', Inv start l' (s.set t m k) := by
  unfold act at hact
  generalize hpc : (s.loc t).pc = pc at hact
  cases pc with
  | idle =>
    have hidle : stages s t = .idle := by
      rw [stages, hpc]
      rfl
    cases op with
    | push e =>
      simp only at hact
      split_ifs at hact with hown
      cases hact
      refine ⟨l, h.plain rfl rfl rfl (h.recorded.call hidle) (fun a ha => ?_) nofun⟩
      obtain rfl := Option.some.inj ha
      exact hown
    | pop =>
      cases hact
      exact ⟨l, h.plain rfl rfl rfl (h.recorded.call hidle) nofun nofun⟩
  | pushLoad | popNext =>
    cases hact
    exact ⟨l, h.quiet hpc rfl rfl nofun⟩
  | pushStore e f =>
    cases hact
    exact ⟨l, h.pushStore hpc⟩
  | pushRead e =>
    cases hact
    refine ⟨l, h.quiet hpc rfl rfl fun a f heq => ?_⟩
    cases heq
    rfl
  | pushCas e f =>
    simp only at hact
    split_ifs at hact with hfirst
    · cases hact
      exact ⟨e :: l, h.pushCas hpc hfirst⟩
    · cases hact
      exact ⟨l, h.quiet hpc rfl rfl nofun⟩
  | pushDone =>
    cases hact
    refine ⟨l, h.plain rfl rfl rfl (h.recorded.ret (r := none) ?_) nofun nofun⟩
    rw [stages, hpc]
    rfl
  | popFirst =>
    cases hact
    cases hfirst : s.mem.first with
    | some f => exact ⟨l, h.quiet hpc rfl rfl nofun⟩
    | none =>
      -- the stack is empty now
      have hchain := h.partition.1
      rw [hfirst] at hchain
      cases l with
      | cons a l => exact hchain.elim
      | nil =>
        refine ⟨[], h.plain rfl rfl rfl ?_ nofun nofun⟩
        exact h.recorded.point (o := .pop) (by rw [stages, hpc]; rfl)
  | popCount f =>
    cases f <;> cases hact <;> exact ⟨l, h.quiet hpc rfl rfl nofun⟩
  | popCas f n x =>
    simp only at hact
    simp only [Current, hpc] at hok
    split_ifs at hact with hsame
    · cases hact
      exact h.popCas hpc hsame.1 (hok hsame)
    · cases hact
      exact ⟨l, h.quiet hpc rfl rfl nofun⟩
  | popDone r =>
    cases hact
    refine ⟨l, h.plain rfl rfl rfl (h.recorded.ret (r := r) ?_) nofun nofun⟩
    rw [stages, hpc]
    rfl

/-- A compare-and-swap that is not current leaves elements that can be reached and are owned, or
neither. -/
lemma not_partition_of_not_current (h : Partition s l) (hno : ¬ Current s (t, op))
    (hact : act t op s.mem (s.loc t) = some (m, k)) : ¬ Partition (s.set t m k) l' := by
  intro h'
  cases hpc : (s.loc t).pc with
  | popCas f n x =>
    simp only [Current, hpc, Classical.not_imp] at hno
    obtain ⟨hsame, hx⟩ := hno
    simp only [act, hpc, if_pos hsame] at hact
    cases hact
    have hchain := h.1
    rw [hsame.1] at hchain
    cases l with
    | nil => exact hchain.elim
    | cons a l =>
      obtain ⟨rfl, hchain⟩ := hchain
      obtain ⟨hf, hnd⟩ := nodup_cons.mp h.2.1
      refine hx (hchain.eq_of_mem_iff h'.1 hnd fun a => ?_)
      rw [h'.mem_iff]
      simp only [owns_set]
      constructor
      · intro hnone
        have hne : a ≠ f := by
          rintro rfl
          have := hnone t
          rw [if_pos ⟨rfl, rfl⟩] at this
          exact Bool.false_ne_true this.symm
        refine (mem_cons.mp (h.mem_iff.mpr fun u => ?_)).resolve_left hne
        rw [← hnone u, if_neg fun hu => hne hu.2]
      · intro ha u
        have hne : a ≠ f := by
          rintro rfl
          exact hf ha
        rw [if_neg fun hu => hne hu.2]
        exact h.mem_iff.mp (mem_cons_of_mem f ha) u
  | _ =>
    rw [Current, hpc] at hno
    exact hno trivial

end

/-- **Pops with the present successor.** As long as every compare-and-swap of a pop that succeeds
puts the present successor of the first element in its place, every element is owned by one thread
or in the stack once, and the history is that of a stack. Any other pop breaks this at once. -/
theorem lifo_sound_iff [DecidableEq E] (h : (lifo T start).Reach Current s) :
    Sound start s ∧ ∀ a s', (lifo T start).step a s = some s' → (Sound start s' ↔ Current s a) := by
  have hinv : ∃ l, Inv start l s := by
    refine Threads.invariant (I := fun s => ∃ l, Inv start l s) (fun s hs => ?_)
      (fun s t op m k hI hok hact => ?_) h
    · obtain ⟨hpart, hhist, hidle⟩ := hs
      have hstages : stages s = fun _ => .idle := by
        funext t
        rw [stages, hidle t]
        rfl
      refine ⟨start, hpart, ?_, fun t e ht => ?_, fun t e f ht => ?_⟩
      · rw [hhist, hstages]
        exact .start
      · rw [hidle t] at ht
        cases ht
      · rw [hidle t] at ht
        cases ht
    · obtain ⟨l, hl⟩ := hI
      exact hl.step hok hact
  obtain ⟨l, hl⟩ := hinv
  refine ⟨hl.sound, fun a s' hstep => ?_⟩
  obtain ⟨m, k, hact, rfl⟩ := interleaving_step hstep
  refine ⟨fun hsound => ?_, fun hok => ?_⟩
  · by_contra hno
    obtain ⟨l', hl'⟩ := hsound.partition
    exact not_partition_of_not_current hl.partition hno hact hl'
  · obtain ⟨l', hl'⟩ := hl.step hok hact
    exact hl'.sound

def three : Threads (Fin 2) (Head (Fin 2) (Fin 3)) (Thread (Fin 3)) where
  mem :=
    { first := some 0
      next := fun e => if h : e.val + 1 < 3 then some ⟨e.val + 1, h⟩ else none }
  loc _ := { owns := fun _ => false }

lemma three_init : (lifo (Fin 2) [0, 1, 2]).init three :=
  ⟨⟨by decide, by decide, fun e => .inl ⟨by revert e; decide, fun _ => rfl⟩⟩, rfl, fun _ => rfl⟩

/-- The first thread reads the first element, and then the second one pops twice. -/
def poppedTwice : List (Fin 2 × Op (Fin 3)) :=
  List.replicate 2 (0, .pop) ++ List.replicate 12 (1, .pop)

theorem lifo_sound_iff_poppedTwice :
    ∃ s, (lifo (Fin 2) [0, 1, 2]).run (fun s a => decide (Current s a)) poppedTwice three = some s ∧
      s.mem.first = some 2 ∧ Sound [0, 1, 2] s := by
  obtain ⟨s, hs, hfirst⟩ : ∃ s ∈ (lifo (Fin 2) [0, 1, 2]).run (fun s a => decide (Current s a))
      poppedTwice three, s.mem.first = some 2 := by decide
  have hstart : (lifo (Fin 2) [0, 1, 2]).Reach Current three := .start three_init
  have hreach := hstart.run (fun _ _ => of_decide_eq_true) hs
  exact ⟨s, hs, hfirst, (lifo_sound_iff hreach).1⟩

/-- The first thread reads the count and the successor, the second one pushes the element back,
and the first thread pops it. -/
def poppedStale : List (Fin 2 × Op (Fin 3)) :=
  poppedTwice ++ List.replicate 2 (0, .pop) ++ List.replicate 5 (1, .push 0) ++ [(0, .pop)]

/-- The second thread owns the element that the first thread has put at the top. -/
theorem lifo_duplicates :
    ∃ s, (lifo (Fin 2) [0, 1, 2]).run (fun _ _ => true) poppedStale three = some s ∧
      s.mem.first = some 1 ∧ (s.loc 1).owns 1 = true ∧ ¬ Sound [0, 1, 2] s := by
  obtain ⟨s, hs, hfirst, hown⟩ : ∃ s ∈ (lifo (Fin 2) [0, 1, 2]).run (fun _ _ => true) poppedStale
      three, s.mem.first = some 1 ∧ (s.loc 1).owns 1 = true := by decide
  refine ⟨s, hs, hfirst, hown, fun hsound => ?_⟩
  obtain ⟨l, hl⟩ := hsound.partition
  have hchain := hl.1
  rw [hfirst] at hchain
  cases l with
  | nil => exact hchain.elim
  | cons a l => exact hl.notMem hown (hchain.1 ▸ mem_cons_self)

/-! ### Progress -/

variable [DecidableEq E] {m' : Head T E} {k' : Thread E}

/-- The next step of a thread does not end its loop. -/
def Pc.inVain (m : Head T E) : Pc E → Bool
  | .pushCas _ f => m.first ≠ f
  | .popCount none => false
  | .popCas f c _ => ¬ (m.first = some f ∧ m.count = c)
  | _ => true

/-- How many steps in vain a thread can take, where a store of `LIFO_PUSH` that is out of date
counts for each of `n` threads whose link it may overwrite. -/
def Pc.left (n : ℕ) (m : Head T E) : Pc E → ℕ
  | .idle => 4
  | .pushLoad _ | .popFirst => 3
  | .pushStore _ f => if m.first = f then 2 else 4 * n + 6
  | .pushRead e => if m.first = m.next e then 1 else 5
  | .pushCas _ f => if m.first = f then 0 else 4
  | .pushDone | .popDone _ => 5
  | .popCount f => if m.first = f then 2 else 6
  | .popNext f c => if m.first = some f ∧ m.count = c then 1 else 5
  | .popCas f c _ => if m.first = some f ∧ m.count = c then 0 else 4

omit [DecidableEq T] in
lemma Pc.left_le (n : ℕ) (m : Head T E) (p : Pc E) : p.left n m ≤ 4 * n + 6 := by
  cases p <;> grind [Pc.left]

omit [DecidableEq T] in
lemma left_act (n : ℕ) (hvain : k.pc.inVain m = true) (hact : act t op m k = some (m', k')) :
    ∃ d, k'.pc.left n m' + n * d < k.pc.left n m ∧
      ∀ j : Thread E, j.pc.left n m' ≤ j.pc.left n m + d := by
  by_cases hstore : ∃ e f, k.pc = .pushStore e f
  · obtain ⟨e, f, hpc⟩ := hstore
    simp only [act, hpc] at hact
    cases hact
    refine ⟨if m.first = f then 0 else 4, ?_, fun j => ?_⟩
    · grind [Pc.left]
    · cases j.pc <;> grind [Pc.left]
  · have hsame : m'.first = m.first ∧ m'.count = m.count ∧ m'.next = m.next ∧
        k'.pc.left n m' < k.pc.left n m := by
      unfold act at hact
      cases hpc : k.pc <;> rw [hpc] at hvain hact <;> grind [Pc.left, Pc.inVain]
    obtain ⟨hfirst, hcount, hnext, hlt⟩ := hsame
    refine ⟨0, by omega, fun j => ?_⟩
    cases j.pc <;> simp only [Pc.left, hfirst, hcount, hnext] <;> rfl

/-- **The stack is lock-free.** From whatever state `n` threads go on, they take at most
`n * (4 * n + 6)` steps, in any order, before one of them ends its loop. -/
theorem lifo_lock_free [Fintype T] {l : List (T × Op E)}
    (h : (lifo T start).run (fun s a => (s.loc a.1).pc.inVain s.mem) l s = some s') :
    l.length ≤ Fintype.card T * (4 * Fintype.card T + 6) := by
  refine (length_le_sum (fun m (k : Thread E) => k.pc.inVain m) (fun m k => k.pc.left _ m)
    (fun _ _ _ _ _ _ => left_act _) h).trans ?_
  exact Finset.sum_le_card_nsmul _ _ _ fun t _ => (s.loc t).pc.left_le _ _

theorem lifo_lock_free_three :
    ∃ s, (lifo (Fin 2) [0, 1, 2]).run (fun s a => (s.loc a.1).pc.inVain s.mem)
      (replicate 4 (0, .pop)) three = some s ∧ 4 ≤ 2 * (4 * 2 + 6) := by
  obtain ⟨s, hs⟩ : ∃ s, (lifo (Fin 2) [0, 1, 2]).run (fun s a => (s.loc a.1).pc.inVain s.mem)
      (replicate 4 (0, .pop)) three = some s := ⟨_, rfl⟩
  exact ⟨s, hs, lifo_lock_free hs⟩

end Corey.Sync.Lifo
