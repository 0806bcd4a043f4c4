import Corey.Sync.Sysmon

/-!
The ring of system calls is a queue.

The invariant gives each slot a phase, and each phase one side that may write the slot. The calls
that wait are in the slots in turn, from the one the monitor polls to the one the client takes.
-/

open Function List

namespace Corey.Sync.Sysmon

open Corey.Kern.SyscallArgs (Word Ref)

/-! ### Flags -/

def useFlag (ret : Bool) : Flag := userInuse ||| if ret then kernRet else 0

def callFlag (ret : Bool) : Flag := useFlag ret ||| kernCall

lemma callFlag_call (ret : Bool) : callFlag ret &&& kernCall ≠ 0 := by cases ret <;> decide

lemma callFlag_ret : callFlag true &&& kernRet ≠ 0 := by decide

lemma callFlag_clear (ret : Bool) : callFlag ret &&& ~~~kernCall = useFlag ret := by
  cases ret <;> decide

lemma useFlag_call (ret : Bool) : useFlag ret &&& kernCall = 0 := by cases ret <;> decide

lemma useFlag_ret (ret : Bool) : decide (useFlag ret &&& kernRet ≠ 0) = ret := by
  cases ret <;> decide

lemma useFlag_inuse (ret : Bool) : useFlag ret &&& userInuse ≠ 0 := by cases ret <;> decide

lemma callFlag_inuse (ret : Bool) : callFlag ret &&& userInuse ≠ 0 := by cases ret <;> decide

lemma useFlag_free : useFlag false &&& ~~~userInuse = 0 := by decide

lemma useFlag_answer : useFlag true &&& ~~~kernRet = useFlag false := by decide

lemma useFlag_ask : useFlag false ||| kernRet = useFlag true := by decide

lemma zero_take : (0 : Flag) ||| userInuse = useFlag false := by decide

/-! ### The invariant -/

/-- What becomes of a slot. The numbers are those of the calls. -/
inductive Phase
  | free
  | filling
  | queued (k : ℕ)
  | served (k : ℕ)
  | answered (k : ℕ)

/-- The client may write the slot. -/
def Phase.mine : Phase → Bool
  | .free | .filling | .answered _ => true
  | .queued _ | .served _ => false

/-- What is known of a slot. -/
def Phase.Holds (log : Log) (x : Slot) : Phase → Prop
  | .free => x.flag = 0
  | .filling => ∃ ret, x.flag = useFlag ret
  | .queued k => ∃ sub, log.submitted[k]? = some sub ∧ x.flag = callFlag sub.ret ∧
      Carries x.arg sub.call
  | .served k => ∃ sub, log.submitted[k]? = some sub ∧
      (x.flag = callFlag sub.ret ∨ x.flag = useFlag sub.ret)
  | .answered k => x.flag = useFlag false ∧ ∃ arg, log.executed[k]? = some (arg, x.ret)

/-- The arguments once the stores `ws` have been made. -/
def stored (arg : Arg) : List (Field × Word) → Arg
  | [] => arg
  | w :: ws => stored (update arg w.1 w.2) ws

/-- The place of the client and the slots. -/
def Client.Fits (ph : ℕ → Phase) (slots : ℕ → Slot) (c : Client) : Prop :=
  match c.pc with
  | .idle | .spin _ _ => True
  | .takeLoad _ _ => ph c.nextSlot = .free
  | .takeStore _ _ v => ph c.nextSlot = .free ∧ v = 0
  | .retLoad i _ => ph i = .filling ∧ (slots i).flag = useFlag false
  | .retStore i _ v => ph i = .filling ∧ v = useFlag false
  | .fill i call ret ws =>
    ph i = .filling ∧ (slots i).flag = useFlag ret ∧ Carries (stored (slots i).arg ws) call
  | .callLoad i call ret =>
    ph i = .filling ∧ (slots i).flag = useFlag ret ∧ Carries (slots i).arg call
  | .callStore i call ret v => ph i = .filling ∧ v = useFlag ret ∧ Carries (slots i).arg call
  | .wait i k => (i, k) ∈ c.held
  | .read i k => ph i = .answered k ∧ (i, k) ∈ c.held
  | .freeLoad i k => ph i = .answered k
  | .freeStore i k v => ph i = .answered k ∧ v = useFlag false

/-- The client has taken a slot that it has not handed over. -/
def ClientPc.filling : ClientPc → Option ℕ
  | .retLoad i _ | .retStore i _ _ | .fill i _ _ _ | .callLoad i _ _ | .callStore i _ _ _ => some i
  | _ => none

/-- The place of the monitor and the slot `x` of the call `sub`. -/
def MonitorPc.Fits (x : Slot) (sub : Sub) (done : Option (Arg × Word)) : MonitorPc → Prop
  | .poll => True
  | .callLoad => x.flag = callFlag sub.ret ∧ Carries x.arg sub.call
  | .callStore v => v = callFlag sub.ret ∧ Carries x.arg sub.call
  | .retRead => x.flag = useFlag sub.ret ∧ Carries x.arg sub.call
  | .copy toReturn arg fs => toReturn = sub.ret ∧ x.flag = useFlag sub.ret ∧
      Carries x.arg sub.call ∧ (∀ f ∉ fs, arg f = x.arg f) ∧ fs.length ≤ 8
  | .useLoad arg => sub.ret = false ∧ x.flag = useFlag false ∧ Carries arg sub.call
  | .useStore arg v => sub.ret = false ∧ v = useFlag false ∧ Carries arg sub.call
  | .exec true arg => sub.ret = true ∧ x.flag = useFlag true ∧ Carries arg sub.call
  | .exec false arg => sub.ret = false ∧ Carries arg sub.call
  | .retStore r => sub.ret = true ∧ x.flag = useFlag true ∧ ∃ arg, done = some (arg, r)
  | .retLoad => sub.ret = true ∧ x.flag = useFlag true ∧ ∃ arg, done = some (arg, x.ret)
  | .flagStore v => sub.ret = true ∧ v = useFlag true ∧ ∃ arg, done = some (arg, x.ret)

/-- A call has been taken over. -/
def MonitorPc.busy : MonitorPc → ℕ
  | .poll => 0
  | _ => 1

def MonitorPc.done : MonitorPc → ℕ
  | .retStore _ | .retLoad | .flagStore _ => 1
  | _ => 0

structure Log.Ok (n : ℕ) (log : Log) : Prop where
  slot : ∀ (k : ℕ) (sub : Sub), log.submitted[k]? = some sub → sub.slot = k % n
  args : ∀ (k : ℕ) (x : Arg × Word), log.executed[k]? = some x →
    ∃ sub : Sub, log.submitted[k]? = some sub ∧ Carries x.1 sub.call
  results : ∀ k r, (k, r) ∈ log.results → ∃ arg, log.executed[k]? = some (arg, r)

/-- The monitor has finished `p` calls. -/
structure Inv (n : ℕ) (ph : ℕ → Phase) (p : ℕ) (s : State) : Prop where
  holds : ∀ i, (ph i).Holds s.mem.log (s.mem.slots i)
  client : s.client.Fits ph s.mem.slots
  filling : ∀ i, s.client.pc.filling = some i →
    i = s.mem.log.submitted.length % n ∧
      s.client.nextSlot = (s.mem.log.submitted.length + 1) % n
  next : s.client.pc.filling = none → s.client.nextSlot = s.mem.log.submitted.length % n
  held : ∀ i k, (i, k) ∈ s.client.held →
    (∃ sub, s.mem.log.submitted[k]? = some sub ∧ sub.ret = true) ∧
      (ph i = .queued k ∨ ph i = .served k ∨ ph i = .answered k)
  monitor : s.monitor.pc ≠ .poll → ∃ sub, s.mem.log.submitted[p]? = some sub ∧
    (s.monitor.pc.uses = true → ph s.monitor.nextSlot = .served p) ∧
      s.monitor.pc.Fits (s.mem.slots s.monitor.nextSlot) sub s.mem.log.executed[p]?
  polls : s.monitor.nextSlot = p % n
  served : ∀ i k, ph i = .served k → s.monitor.pc.uses = true ∧ i = s.monitor.nextSlot
  queued : ∀ i k, ph i = .queued k → i = k % n ∧ p + s.monitor.pc.busy ≤ k
  queue : ∀ k, p + s.monitor.pc.busy ≤ k → k < s.mem.log.submitted.length →
    ph (k % n) = .queued k
  bound : p + s.monitor.pc.busy ≤ s.mem.log.submitted.length
  count : s.mem.log.executed.length = p + s.monitor.pc.done
  log : s.mem.log.Ok n

variable {n p i j k : ℕ} {ph ph' : ℕ → Phase} {s : State} {x : Slot} {φ : Phase} {c : Client}
  {d : Monitor} {m : Shared} {call : Call} {arg : Arg} {sub : Sub} {log : Log} {r : Word} {op : Op}
  {a : Act} {pc : MonitorPc}

lemma phase_update {ψ : Phase} (h : update ph i φ j = ψ) : j = i ∧ φ = ψ ∨ j ≠ i ∧ ph j = ψ := by
  rw [update_apply] at h
  split_ifs at h with hj
  · exact .inl ⟨hj, h⟩
  · exact .inr ⟨hj, h⟩

lemma ne_of_mine (hi : (ph i).mine = true) (hj : ph j = φ) (hφ : φ.mine = false) : j ≠ i := by
  rintro rfl
  rw [hj, hφ] at hi
  cases hi

lemma carries_stored (arg : Arg) (call : Call) : Carries (stored arg call.writes) call := by
  intro w hw
  cases call with
  | deviceBuf devref sgref offset type =>
    simp only [Call.writes, mem_cons, not_mem_nil, or_false] at hw
    rcases hw with rfl | rfl | rfl | rfl | rfl | rfl | rfl <;> rfl
  | processorCurrent =>
    obtain rfl := mem_singleton.mp hw
    rfl

lemma Client.Fits.frame {slots slots' : ℕ → Slot} (h : c.Fits ph slots) (hj : (ph j).mine = false)
    (hph : ∀ i, i ≠ j → ph' i = ph i) (hslots : ∀ i, i ≠ j → slots' i = slots i) :
    c.Fits ph' slots' := by
  have hne : ∀ {i φ}, ph i = φ → φ.mine = true → i ≠ j := by
    rintro i φ hi hφ rfl
    rw [hi, hφ] at hj
    cases hj
  obtain ⟨pc, next, held⟩ := c
  cases pc with
  | idle | spin | wait => exact h
  | takeLoad => exact (hph _ (hne h rfl)).trans h
  | takeStore => exact ⟨(hph _ (hne h.1 rfl)).trans h.1, h.2⟩
  | retLoad i =>
    have hi := hne h.1 rfl
    exact ⟨(hph i hi).trans h.1, (hslots i hi).symm ▸ h.2⟩
  | retStore i | read i | freeStore i => exact ⟨(hph i (hne h.1 rfl)).trans h.1, h.2⟩
  | fill i | callLoad i | callStore i =>
    have hi := hne h.1 rfl
    refine ⟨(hph i hi).trans h.1, ?_⟩
    simp only [hslots i hi]
    exact h.2
  | freeLoad i => exact (hph i (hne h rfl)).trans h

lemma MonitorPc.Fits.frame {done : Option (Arg × Word)} {y : Slot}
    (h : pc.Fits x sub done) (hx : pc.uses = true → y = x) : pc.Fits y sub done := by
  cases hu : pc.uses with
  | true => exact hx hu ▸ h
  | false =>
    cases pc with
    | poll => trivial
    | exec toReturn arg =>
      cases toReturn with
      | true => cases hu
      | false => exact h
    | _ => cases hu

lemma Phase.Holds.mono {log' : Log} (h : φ.Holds log x)
    (hs : ∀ (k : ℕ) (sub : Sub), log.submitted[k]? = some sub → log'.submitted[k]? = some sub)
    (he : ∀ (k : ℕ) (y : Arg × Word), log.executed[k]? = some y → log'.executed[k]? = some y) :
    φ.Holds log' x := by
  cases φ with
  | free | filling => exact h
  | queued k | served k =>
    obtain ⟨sub, hsub, hx⟩ := h
    exact ⟨sub, hs k sub hsub, hx⟩
  | answered k =>
    obtain ⟨hflag, arg, harg⟩ := h
    exact ⟨hflag, arg, he k _ harg⟩

lemma Phase.holds_update {log' : Log} {slots : ℕ → Slot} (h : ∀ j, (ph j).Holds log' (slots j))
    (hx : φ.Holds log' x) (j : ℕ) : (update ph i φ j).Holds log' (update slots i x j) := by
  by_cases hj : j = i
  · rw [hj, update_self, update_self]
    exact hx
  · rw [update_of_ne hj, update_of_ne hj]
    exact h j

lemma Phase.Holds.inuse (h : φ.Holds log x) (hφ : φ ≠ .free) : x.flag &&& userInuse ≠ 0 := by
  cases φ with
  | free => exact absurd rfl hφ
  | filling =>
    obtain ⟨ret, hflag⟩ := h
    exact hflag ▸ useFlag_inuse ret
  | queued k =>
    obtain ⟨sub, -, hflag, -⟩ := h
    exact hflag ▸ callFlag_inuse sub.ret
  | served k =>
    obtain ⟨sub, -, hflag | hflag⟩ := h
    · exact hflag ▸ callFlag_inuse sub.ret
    · exact hflag ▸ useFlag_inuse sub.ret
  | answered k => exact h.1 ▸ useFlag_inuse false

lemma getElem?_snoc {α : Type} {l : List α} {a b : α} (h : l[k]? = some a) :
    (l ++ [b])[k]? = some a := by
  rw [List.getElem?_append_left (List.getElem?_eq_some_iff.mp h).1]
  exact h

lemma Inv.at (h : Inv n ph p s) (hi : ph i = φ) : φ.Holds s.mem.log (s.mem.slots i) :=
  hi ▸ h.holds i

/-! ### Steps of the client -/

lemma Inv.held_phase (h : Inv n ph p s) (hheld : (i, k) ∈ s.client.held) :
    ph i ≠ .free ∧ ph i ≠ .filling := by
  rcases (h.held i k hheld).2 with hi | hi | hi <;> rw [hi] <;> exact ⟨nofun, nofun⟩

lemma Inv.client_local (h : Inv n ph p s) (hfits : c.Fits ph s.mem.slots)
    (hfill : c.pc.filling = s.client.pc.filling) (hnext : c.nextSlot = s.client.nextSlot)
    (hheld : c.held = s.client.held) : Inv n ph p { s with client := c } :=
  { h with
    client := hfits
    filling := hfill ▸ hnext ▸ h.filling
    next := hfill ▸ hnext ▸ h.next
    held := hheld ▸ h.held }

lemma monitor_frame {done : Option (Arg × Word)} (hi : (ph i).mine = true)
    (hm : (s.monitor.pc.uses = true → ph s.monitor.nextSlot = .served p) ∧
      s.monitor.pc.Fits (s.mem.slots s.monitor.nextSlot) sub done) :
    (s.monitor.pc.uses = true → update ph i φ s.monitor.nextSlot = .served p) ∧
      s.monitor.pc.Fits (update s.mem.slots i x s.monitor.nextSlot) sub done := by
  have hne : s.monitor.pc.uses = true → s.monitor.nextSlot ≠ i := fun hu =>
    ne_of_mine hi (hm.1 hu) rfl
  refine ⟨fun hu => ?_, hm.2.frame fun hu => update_of_ne (hne hu) _ _⟩
  rw [update_of_ne (hne hu)]
  exact hm.1 hu

lemma Inv.client_put (h : Inv n ph p s) (hi : (ph i).mine = true) (hφ : φ.mine = true)
    (hx : φ.Holds s.mem.log x)
    (hfits : c.Fits (update ph i φ) (update s.mem.slots i x))
    (hfill : ∀ j, c.pc.filling = some j → j = s.mem.log.submitted.length % n ∧
      c.nextSlot = (s.mem.log.submitted.length + 1) % n)
    (hnext : c.pc.filling = none → c.nextSlot = s.mem.log.submitted.length % n)
    (hheld : ∀ j k, (j, k) ∈ c.held → (j, k) ∈ s.client.held ∧ j ≠ i) :
    Inv n (update ph i φ) p { s with mem := s.mem.put i x, client := c } := by
  refine { h with
    holds := Phase.holds_update h.holds hx, client := hfits, filling := hfill, next := hnext,
    held := fun j k hj => ?_, monitor := fun hpc => ?_, served := fun j k hj => ?_,
    queued := fun j k hj => ?_, queue := fun k hk hlt => ?_ }
  · obtain ⟨hj, hne⟩ := hheld j k hj
    rw [update_of_ne hne]
    exact h.held j k hj
  · obtain ⟨sub, hsub, hm⟩ := h.monitor hpc
    exact ⟨sub, hsub, monitor_frame hi hm⟩
  · obtain ⟨-, rfl⟩ | ⟨-, hj⟩ := phase_update hj
    · cases hφ
    · exact h.served j k hj
  · obtain ⟨-, rfl⟩ | ⟨-, hj⟩ := phase_update hj
    · cases hφ
    · exact h.queued j k hj
  · have hq := h.queue k hk hlt
    rw [update_of_ne (ne_of_mine hi hq rfl)]
    exact hq

lemma Inv.client_call {ret : Bool} {v : Flag} (h : Inv n ph p s)
    (hpc : s.client.pc = .callStore i call ret v) :
    Inv n (update ph i (.queued s.mem.log.submitted.length)) p { s with
        mem := { s.mem.setFlag i (v ||| kernCall) with
          log := { s.mem.log with submitted := s.mem.log.submitted ++ [⟨i, call, ret⟩] } }
        client := { s.client with
          pc := .idle
          held := if ret then (i, s.mem.log.submitted.length) :: s.client.held
            else s.client.held } } := by
  have hfits := h.client
  simp only [Client.Fits, hpc] at hfits
  obtain ⟨hi, rfl, hargs⟩ := hfits
  have hmine : (ph i).mine = true := by
    rw [hi]
    rfl
  obtain ⟨hslot, hnext⟩ := h.filling i (by rw [hpc]; rfl)
  have hnew : (s.mem.log.submitted ++ [⟨i, call, ret⟩])[s.mem.log.submitted.length]? =
      some ⟨i, call, ret⟩ := getElem?_concat_length
  have hold : ∀ (k : ℕ) (sub : Sub), s.mem.log.submitted[k]? = some sub →
      (s.mem.log.submitted ++ [⟨i, call, ret⟩])[k]? = some sub := fun k sub => getElem?_snoc
  refine ⟨fun j => ?_, trivial, nofun, fun _ => ?_, fun j k hj => ?_, fun hp => ?_, h.polls,
    fun j k hj => ?_, fun j k hj => ?_, fun k hk hlt => ?_, ?_, h.count, fun k sub hk => ?_,
    fun k y hy => ?_, h.log.results⟩
  · refine Phase.holds_update (fun j => ?_) ?_ j
    · exact (h.holds j).mono hold fun _ _ => id
    · exact ⟨_, hnew, rfl, hargs⟩
  · simp only [length_append, length_singleton]
    exact hnext
  · have hcases : (ret = true ∧ (j, k) = (i, s.mem.log.submitted.length)) ∨
        (j, k) ∈ s.client.held := by
      split_ifs at hj with hret
      · exact (mem_cons.mp hj).imp_left fun heq => ⟨hret, heq⟩
      · exact .inr hj
    rcases hcases with ⟨rfl, heq⟩ | hin
    · obtain ⟨rfl, rfl⟩ := Prod.mk.inj heq
      exact ⟨⟨_, hnew, rfl⟩, .inl (update_self _ _ _)⟩
    · obtain ⟨⟨sub, hsub, hret⟩, hphase⟩ := h.held j k hin
      have hne : j ≠ i := by
        rintro rfl
        exact (h.held_phase hin).2 hi
      refine ⟨⟨sub, hold k sub hsub, hret⟩, ?_⟩
      rw [update_of_ne hne]
      exact hphase
  · obtain ⟨sub, hsub, hm⟩ := h.monitor hp
    exact ⟨sub, hold p sub hsub, monitor_frame hmine hm⟩
  · obtain ⟨-, hj⟩ | ⟨-, hj⟩ := phase_update hj
    · cases hj
    · exact h.served j k hj
  · obtain ⟨rfl, hk⟩ | ⟨-, hj⟩ := phase_update hj
    · cases hk
      exact ⟨hslot, h.bound⟩
    · exact h.queued j k hj
  · simp only [length_append, length_singleton, Nat.lt_succ_iff_lt_or_eq] at hlt
    rcases hlt with hlt | rfl
    · have hq := h.queue k hk hlt
      rw [update_of_ne (ne_of_mine hmine hq rfl)]
      exact hq
    · rw [← hslot, update_self]
  · simp only [length_append, length_singleton]
    exact Nat.le_succ_of_le h.bound
  · simp only at hk
    rw [getElem?_append] at hk
    split_ifs at hk with hlt
    · exact h.log.slot k sub hk
    · rw [getElem?_singleton] at hk
      split_ifs at hk with hzero
      obtain rfl := Option.some.inj hk
      have hlast : k = s.mem.log.submitted.length := by omega
      rw [hlast]
      exact hslot
  · obtain ⟨sub, hsub, hc⟩ := h.log.args k y hy
    exact ⟨sub, hold k sub hsub, hc⟩

lemma Inv.client_read (h : Inv n ph p s) (hpc : s.client.pc = .read i k) :
    Inv n ph p { s with
      mem := { s.mem with
        log := { s.mem.log with
          results := s.mem.log.results ++ [(k, (s.mem.slots i).ret)] } }
      client := { s.client with pc := .freeLoad i k } } := by
  have hfits := h.client
  simp only [Client.Fits, hpc] at hfits
  obtain ⟨hi, hin⟩ := hfits
  refine { h with
    client := hi, filling := nofun, next := fun _ => h.next (by rw [hpc]; rfl),
    log := ⟨h.log.slot, h.log.args, fun k' r hr => ?_⟩ }
  rcases mem_append.mp hr with hr | hr
  · exact h.log.results k' r hr
  · obtain ⟨rfl, rfl⟩ := Prod.mk.inj (mem_singleton.mp hr)
    exact (h.at hi).2

lemma Inv.client_step (h : Inv n ph p s) (hact : s.client.act n op s.mem = some (m, c)) :
    ∃ ph', Inv n ph' p { s with mem := m, client := c } ∧
      s.mem.log.submitted.length ≤ m.log.submitted.length := by
  obtain ⟨mem, ⟨pc, next, held⟩, monitor⟩ := s
  have hfits := h.client
  have hkeep : ∀ {i}, ph i = .filling → ∀ j k, (j, k) ∈ held → (j, k) ∈ held ∧ j ≠ i := by
    rintro i hi j k hj
    refine ⟨hj, ?_⟩
    rintro rfl
    exact (h.held_phase hj).2 hi
  cases pc with
  | idle =>
    cases op with
    | submit call ret =>
      cases hact
      exact ⟨ph, h.client_local trivial rfl rfl rfl, le_rfl⟩
    | collect i k =>
      simp only [Client.act] at hact
      split_ifs at hact with hin
      cases hact
      exact ⟨ph, h.client_local hin rfl rfl rfl, le_rfl⟩
  | spin call ret =>
    simp only [Client.act] at hact
    split_ifs at hact with hinuse
    · cases hact
      exact ⟨ph, h, le_rfl⟩
    · cases hact
      refine ⟨ph, h.client_local ?_ rfl rfl rfl, le_rfl⟩
      -- every other slot is in use
      by_contra hph
      exact hinuse ((h.holds next).inuse hph)
  | takeLoad call ret =>
    cases hact
    exact ⟨ph, h.client_local ⟨hfits, h.at hfits⟩ rfl rfl rfl, le_rfl⟩
  | takeStore call ret v =>
    cases hact
    obtain ⟨hfree, rfl⟩ := hfits
    refine ⟨_, h.client_put (φ := .filling) (by rw [hfree]; rfl) rfl ⟨false, zero_take⟩ ?_ ?_ ?_ ?_,
      le_rfl⟩
    · cases ret with
      | true => exact ⟨update_self _ _ _, by rw [update_self]; exact zero_take⟩
      | false =>
        refine ⟨update_self _ _ _, ?_, carries_stored _ _⟩
        rw [update_self]
        exact zero_take
    · intro j hj
      have hj : next = j := by
        cases ret <;> exact Option.some.inj hj
      have hnext : next = mem.log.submitted.length % n := h.next rfl
      rw [← hj, hnext, Nat.mod_add_mod]
      exact ⟨rfl, rfl⟩
    · intro hnone
      cases ret <;> cases hnone
    · rintro j k hj
      refine ⟨hj, ?_⟩
      rintro rfl
      exact (h.held_phase hj).1 hfree
  | retLoad i call =>
    cases hact
    exact ⟨ph, h.client_local hfits rfl rfl rfl, le_rfl⟩
  | retStore i call v =>
    cases hact
    obtain ⟨hi, rfl⟩ := hfits
    refine ⟨_, h.client_put (φ := .filling) (by rw [hi]; rfl) rfl ⟨true, useFlag_ask⟩ ?_
      h.filling nofun (hkeep hi), le_rfl⟩
    refine ⟨update_self _ _ _, ?_, carries_stored _ _⟩
    rw [update_self]
    exact useFlag_ask
  | fill i call ret ws =>
    obtain ⟨hi, hflag, hargs⟩ := hfits
    cases ws with
    | nil =>
      cases hact
      exact ⟨ph, h.client_local ⟨hi, hflag, hargs⟩ rfl rfl rfl, le_rfl⟩
    | cons w ws =>
      cases hact
      refine ⟨_, h.client_put (φ := .filling) (by rw [hi]; rfl) rfl ⟨ret, hflag⟩ ?_ h.filling nofun
        (hkeep hi), le_rfl⟩
      refine ⟨update_self _ _ _, ?_⟩
      simp only [update_self]
      exact ⟨hflag, hargs⟩
  | callLoad i call ret =>
    cases hact
    exact ⟨ph, h.client_local hfits rfl rfl rfl, le_rfl⟩
  | callStore i call ret v =>
    cases hact
    exact ⟨_, h.client_call rfl, by simp⟩
  | wait i k =>
    simp only [Client.act] at hact
    split_ifs at hact with hret
    · cases hact
      exact ⟨ph, h, le_rfl⟩
    · cases hact
      refine ⟨ph, h.client_local ⟨?_, hfits⟩ rfl rfl rfl, le_rfl⟩
      -- the flag is set until the call is answered
      obtain ⟨⟨sub, hsub, hasked⟩, hi | hi | hi⟩ := h.held i k hfits
      · obtain ⟨sub', hsub', hflag, -⟩ := h.at hi
        obtain rfl := Option.some.inj (hsub.symm.trans hsub')
        rw [hasked] at hflag
        exact absurd (hflag ▸ callFlag_ret) hret
      · obtain ⟨sub', hsub', hflag⟩ := h.at hi
        obtain rfl := Option.some.inj (hsub.symm.trans hsub')
        rw [hasked] at hflag
        rcases hflag with hflag | hflag
        · exact absurd (hflag ▸ callFlag_ret) hret
        · exact absurd (hflag ▸ of_decide_eq_true (useFlag_ret true)) hret
      · exact hi
  | read i k =>
    cases hact
    exact ⟨ph, h.client_read rfl, le_rfl⟩
  | freeLoad i k =>
    cases hact
    exact ⟨ph, h.client_local ⟨hfits, (h.at hfits).1⟩ rfl rfl rfl, le_rfl⟩
  | freeStore i k v =>
    cases hact
    obtain ⟨hi, rfl⟩ := hfits
    refine ⟨_, h.client_put (φ := .free) (by rw [hi]; rfl) rfl useFlag_free trivial nofun h.next ?_,
      le_rfl⟩
    rintro j k' hj
    obtain ⟨hin, hne⟩ := mem_filter.mp hj
    refine ⟨hin, ?_⟩
    rintro rfl
    -- the slot holds one call only
    refine of_decide_eq_true hne ?_
    have hphase := (h.held j k' hin).2
    rw [hi] at hphase
    rcases hphase with hk | hk | hk <;> cases hk
    rfl

/-! ### Steps of the monitor -/

lemma MonitorPc.ne_poll (h : pc.uses = true) : pc ≠ .poll := by
  rintro rfl
  cases h

lemma MonitorPc.busy_eq (h : pc ≠ .poll) : pc.busy = 1 := by
  cases pc with
  | poll => exact absurd rfl h
  | _ => rfl

lemma Inv.monitor_put (h : Inv n ph p s) (huses : s.monitor.pc.uses = true)
    (hpc : pc.uses = true) (hdone : pc.done = s.monitor.pc.done)
    (hx : ∀ sub, s.mem.log.submitted[p]? = some sub →
      s.monitor.pc.Fits (s.mem.slots s.monitor.nextSlot) sub s.mem.log.executed[p]? →
        (x.flag = callFlag sub.ret ∨ x.flag = useFlag sub.ret) ∧
          pc.Fits x sub s.mem.log.executed[p]?) : Inv n ph p { s with
      mem := s.mem.put s.monitor.nextSlot x
      monitor := { s.monitor with pc := pc } } := by
  obtain ⟨sub, hsub, hserved, hm⟩ := h.monitor (MonitorPc.ne_poll huses)
  have hserved := hserved huses
  obtain ⟨hflag, hfits⟩ := hx sub hsub hm
  have hbusy : pc.busy = s.monitor.pc.busy := by
    rw [MonitorPc.busy_eq (MonitorPc.ne_poll hpc), MonitorPc.busy_eq (MonitorPc.ne_poll huses)]
  refine ⟨fun j => ?_, ?_, h.filling, h.next, h.held, fun _ => ⟨sub, hsub, fun _ => hserved, ?_⟩,
    h.polls, fun i k hi => ⟨hpc, (h.served i k hi).2⟩, ?_, ?_, ?_, ?_, h.log⟩
  · have hj := Phase.holds_update (i := s.monitor.nextSlot) (φ := .served p) h.holds
      ⟨sub, hsub, hflag⟩ j
    rw [← hserved, update_eq_self] at hj
    exact hj
  · exact h.client.frame (by rw [hserved]; rfl) (fun _ _ => rfl) fun i hi => update_of_ne hi _ _
  · simp only [Shared.put, update_self]
    exact hfits
  · simp only [hbusy]
    exact h.queued
  · simp only [hbusy]
    exact h.queue
  · simp only [hbusy]
    exact h.bound
  · simp only [hdone]
    exact h.count

lemma Inv.monitor_local (h : Inv n ph p s) (huses : s.monitor.pc.uses = true)
    (hpc : pc.uses = true) (hdone : pc.done = s.monitor.pc.done)
    (hx : ∀ sub, s.mem.log.submitted[p]? = some sub →
      s.monitor.pc.Fits (s.mem.slots s.monitor.nextSlot) sub s.mem.log.executed[p]? →
        pc.Fits (s.mem.slots s.monitor.nextSlot) sub s.mem.log.executed[p]?) :
    Inv n ph p { s with monitor := { s.monitor with pc := pc } } := by
  have hflag : ∀ sub, s.mem.log.submitted[p]? = some sub →
      (s.mem.slots s.monitor.nextSlot).flag = callFlag sub.ret ∨
        (s.mem.slots s.monitor.nextSlot).flag = useFlag sub.ret := by
    intro sub hsub
    obtain ⟨-, -, hserved, -⟩ := h.monitor (MonitorPc.ne_poll huses)
    obtain ⟨sub', hsub', hflag⟩ := h.at (hserved huses)
    obtain rfl := Option.some.inj (hsub.symm.trans hsub')
    exact hflag
  have hput := h.monitor_put huses hpc hdone fun sub hsub hm => ⟨hflag sub hsub, hx sub hsub hm⟩
  rw [Shared.put, update_eq_self] at hput
  exact hput

lemma Inv.monitor_poll (h : Inv n ph p s) (hpc : s.monitor.pc = .poll)
    (hcall : (s.mem.slots s.monitor.nextSlot).flag &&& kernCall ≠ 0) :
    Inv n (update ph s.monitor.nextSlot (.served p)) p
      { s with monitor := { s.monitor with pc := .callLoad } } := by
  have hbusy : s.monitor.pc.busy = 0 := by
    rw [hpc]
    rfl
  have hqueued : ph s.monitor.nextSlot = .queued p := by
    cases hph : ph s.monitor.nextSlot with
    | free => exact absurd (congrArg (· &&& kernCall) (h.at hph)) hcall
    | filling =>
      obtain ⟨ret, hflag⟩ := h.at hph
      exact absurd (hflag ▸ useFlag_call ret) hcall
    | queued k =>
      -- the first call that waits is in this slot
      obtain ⟨sub, hsub, -⟩ := h.at hph
      have hk := (h.queued _ k hph).2
      have hlt := (List.getElem?_eq_some_iff.mp hsub).1
      have hq := h.queue p (by omega) (by omega)
      rw [← h.polls, hph] at hq
      exact hq
    | served k =>
      have := (h.served _ k hph).1
      rw [hpc] at this
      cases this
    | answered k => exact absurd ((h.at hph).1 ▸ useFlag_call false) hcall
  obtain ⟨sub, hsub, hflag, hargs⟩ := h.at hqueued
  have hlt := (List.getElem?_eq_some_iff.mp hsub).1
  refine ⟨fun j => ?_, ?_, h.filling, h.next, fun i k hi => ?_,
    fun _ => ⟨sub, hsub, fun _ => update_self _ _ _, hflag, hargs⟩, h.polls,
    fun i k hi => ?_, fun i k hi => ?_, fun k hk hlt => ?_, hlt, ?_, h.log⟩
  · have hj := Phase.holds_update (i := s.monitor.nextSlot) (φ := .served p) h.holds
      ⟨sub, hsub, .inl hflag⟩ j
    rw [update_eq_self] at hj
    exact hj
  · exact h.client.frame (by rw [hqueued]; rfl) (fun i hi => update_of_ne hi _ _) fun _ _ => rfl
  · obtain ⟨hasked, hphase⟩ := h.held i k hi
    refine ⟨hasked, ?_⟩
    by_cases hj : i = s.monitor.nextSlot
    · rw [hj, hqueued] at hphase
      rw [hj, update_self]
      rcases hphase with hk | hk | hk <;> cases hk
      exact .inr (.inl rfl)
    · rw [update_of_ne hj]
      exact hphase
  · obtain ⟨hj, -⟩ | ⟨-, hi⟩ := phase_update hi
    · exact ⟨rfl, hj⟩
    · have := (h.served i k hi).1
      rw [hpc] at this
      cases this
  · obtain ⟨-, hi⟩ | ⟨hj, hi⟩ := phase_update hi
    · cases hi
    obtain ⟨hik, hk⟩ := h.queued i k hi
    have hne : k ≠ p := by
      rintro rfl
      exact hj (hik.trans h.polls.symm)
    refine ⟨hik, ?_⟩
    show p + 1 ≤ k
    omega
  · have hk : p + 1 ≤ k := hk
    have hq := h.queue k (by omega) hlt
    have hne : k % n ≠ s.monitor.nextSlot := by
      intro heq
      rw [heq, hqueued] at hq
      cases hq
      omega
    rw [update_of_ne hne]
    exact hq
  · have hcount := h.count
    rw [hpc] at hcount
    exact hcount

lemma Inv.monitor_leave {p' : ℕ} (h : Inv n ph p s) (huses : s.monitor.pc.uses = true)
    (hφ : φ.mine = true) (hx : φ.Holds s.mem.log x)
    (hheld : ∀ k, (s.monitor.nextSlot, k) ∈ s.client.held → φ = .answered k)
    (hnot : d.pc.uses = false) (hbusy : p' + d.pc.busy = p + 1) (hpolls : d.nextSlot = p' % n)
    (hcount : s.mem.log.executed.length = p' + d.pc.done)
    (hm : d.pc ≠ .poll → ∃ sub, s.mem.log.submitted[p']? = some sub ∧
      d.pc.Fits x sub s.mem.log.executed[p']?) :
    Inv n (update ph s.monitor.nextSlot φ) p'
      { s with mem := s.mem.put s.monitor.nextSlot x, monitor := d } := by
  have hold := MonitorPc.busy_eq (MonitorPc.ne_poll huses)
  obtain ⟨sub, hsub, hserved, -⟩ := h.monitor (MonitorPc.ne_poll huses)
  have hserved := hserved huses
  refine ⟨fun j => ?_, ?_, h.filling, h.next, fun i k hi => ?_, fun hp => ?_, hpolls,
    fun i k hi => ?_, fun i k hi => ?_, fun k hk hlt => ?_, ?_, hcount, h.log⟩
  · exact Phase.holds_update h.holds hx j
  · exact h.client.frame (by rw [hserved]; rfl) (fun i hi => update_of_ne hi _ _)
      fun i hi => update_of_ne hi _ _
  · obtain ⟨hasked, hphase⟩ := h.held i k hi
    refine ⟨hasked, ?_⟩
    by_cases hj : i = s.monitor.nextSlot
    · subst hj
      rw [update_self]
      exact .inr (.inr (hheld k hi))
    · rw [update_of_ne hj]
      exact hphase
  · obtain ⟨sub, hsub, hfits⟩ := hm hp
    exact ⟨sub, hsub, fun hu => absurd (hnot.symm.trans hu) Bool.false_ne_true,
      hfits.frame fun hu => absurd (hnot.symm.trans hu) Bool.false_ne_true⟩
  · obtain ⟨-, rfl⟩ | ⟨hj, hi⟩ := phase_update hi
    · cases hφ
    · exact absurd (h.served i k hi).2 hj
  · obtain ⟨-, rfl⟩ | ⟨-, hi⟩ := phase_update hi
    · cases hφ
    · obtain ⟨hik, hk⟩ := h.queued i k hi
      simp only [hbusy]
      exact ⟨hik, hold ▸ hk⟩
  · simp only [hbusy] at hk
    have hq := h.queue k (hold.symm ▸ hk) hlt
    have hne : k % n ≠ s.monitor.nextSlot := by
      intro heq
      rw [heq, hserved] at hq
      cases hq
    rw [update_of_ne hne]
    exact hq
  · simp only [hbusy]
    exact hold ▸ h.bound

lemma Inv.monitor_exec {toReturn : Bool} (h : Inv n ph p s)
    (hpc : s.monitor.pc = .exec toReturn arg) :
    Inv n ph (if toReturn then p else p + 1) { s with
        mem := { s.mem with
          log := { s.mem.log with executed := s.mem.log.executed ++ [(arg, r)] } }
        monitor := if toReturn then { s.monitor with pc := .retStore r }
          else s.monitor.advance n } := by
  have hpoll : s.monitor.pc ≠ .poll := by
    rw [hpc]
    nofun
  obtain ⟨sub, hsub, hserved, hm⟩ := h.monitor hpoll
  have hcount : s.mem.log.executed.length = p := by
    have := h.count
    rw [hpc] at this
    exact this
  have hold : ∀ (k : ℕ) (y : Arg × Word), s.mem.log.executed[k]? = some y →
      (s.mem.log.executed ++ [(arg, r)])[k]? = some y := fun k y => getElem?_snoc
  have hnew : (s.mem.log.executed ++ [(arg, r)])[p]? = some (arg, r) := by
    rw [← hcount]
    exact getElem?_concat_length
  have hargs : Carries arg sub.call := by
    rw [hpc] at hm
    cases toReturn with
    | true => exact hm.2.2
    | false => exact hm.2
  have hlog : Log.Ok n { s.mem.log with executed := s.mem.log.executed ++ [(arg, r)] } := by
    refine ⟨h.log.slot, fun k y hy => ?_, fun k r' hr => ?_⟩
    · simp only at hy
      rw [getElem?_append] at hy
      split_ifs at hy with hlt
      · exact h.log.args k y hy
      · rw [getElem?_singleton] at hy
        split_ifs at hy with hzero
        obtain rfl := Option.some.inj hy
        have hlast : k = p := by omega
        rw [hlast]
        exact ⟨sub, hsub, hargs⟩
    · obtain ⟨arg', harg'⟩ := h.log.results k r' hr
      exact ⟨arg', hold k _ harg'⟩
  have hholds : ∀ i, (ph i).Holds { s.mem.log with executed := s.mem.log.executed ++ [(arg, r)] }
      (s.mem.slots i) := fun i => (h.holds i).mono (fun _ _ => id) hold
  have hbusy := MonitorPc.busy_eq hpoll
  have hqueued : ∀ i k, ph i = .queued k → i = k % n ∧ p + 1 ≤ k := hbusy ▸ h.queued
  have hqueue : ∀ k, p + 1 ≤ k → k < s.mem.log.submitted.length → ph (k % n) = .queued k :=
    hbusy ▸ h.queue
  have hbound : p + 1 ≤ s.mem.log.submitted.length := hbusy ▸ h.bound
  have hlen : (s.mem.log.executed ++ [(arg, r)]).length = p + 1 := by
    rw [length_append, hcount]
    rfl
  cases toReturn with
  | true =>
    rw [hpc] at hm hserved
    exact ⟨hholds, h.client, h.filling, h.next, h.held,
      fun _ => ⟨sub, hsub, fun _ => hserved rfl, hm.1, hm.2.1, arg, hnew⟩, h.polls,
      fun i k hi => ⟨rfl, (h.served i k hi).2⟩, hqueued, hqueue, hbound, hlen, hlog⟩
  | false =>
    refine ⟨hholds, h.client, h.filling, h.next, h.held, fun hp => absurd rfl hp, ?_,
      fun i k hi => ?_, hqueued, hqueue, hbound, hlen, hlog⟩
    · show (s.monitor.nextSlot + 1) % n = (p + 1) % n
      rw [h.polls, Nat.mod_add_mod]
    · have := (h.served i k hi).1
      rw [hpc] at this
      cases this

/-- The steps of the monitor that are left in a round, at most. -/
def MonitorPc.left : MonitorPc → ℕ
  | .poll => 19
  | .callLoad => 18
  | .callStore _ => 17
  | .retRead => 16
  | .copy _ _ fs => 7 + fs.length
  | .useLoad _ => 6
  | .useStore _ _ => 5
  | .exec _ _ => 4
  | .retStore _ => 3
  | .retLoad => 2
  | .flagStore _ => 1

lemma Inv.monitor_step (h : Inv n ph p s) (hact : s.monitor.act n r s.mem = (m, d)) :
    ∃ ph' p', Inv n ph' p' { s with mem := m, monitor := d } ∧ p ≤ p' ∧
      (p < s.mem.log.submitted.length → 19 * p + d.pc.left < 19 * p' + s.monitor.pc.left) := by
  obtain ⟨mem, client, ⟨pc, next⟩⟩ := s
  cases pc with
  | poll =>
    simp only [Monitor.act] at hact
    split_ifs at hact with hcall
    · cases hact
      exact ⟨_, p, h.monitor_poll rfl hcall, le_rfl, fun _ => Nat.lt_succ_self _⟩
    · cases hact
      refine ⟨ph, p, h, le_rfl, fun hlt => absurd ?_ hcall⟩
      obtain ⟨sub, -, hflag, -⟩ := h.at (h.queue p le_rfl hlt)
      rw [show next = p % n from h.polls, hflag]
      exact callFlag_call sub.ret
  | callLoad | useLoad | retLoad =>
    cases hact
    exact ⟨ph, p, h.monitor_local rfl rfl rfl fun _ _ => id, le_rfl, fun _ => Nat.lt_succ_self _⟩
  | callStore v =>
    cases hact
    refine ⟨ph, p, h.monitor_put rfl rfl rfl ?_, le_rfl, fun _ => Nat.lt_succ_self _⟩
    rintro sub - ⟨rfl, hargs⟩
    exact ⟨.inr (callFlag_clear _), callFlag_clear _, hargs⟩
  | retRead =>
    cases hact
    refine ⟨ph, p, h.monitor_local rfl rfl rfl ?_, le_rfl, fun _ => Nat.lt_succ_self _⟩
    rintro sub - ⟨hflag, hargs⟩
    refine ⟨?_, hflag, hargs, fun f hf => absurd ?_ hf, le_rfl⟩
    · rw [hflag]
      exact useFlag_ret sub.ret
    · cases f <;> decide
  | copy toReturn arg fs =>
    cases fs with
    | nil =>
      cases hact
      refine ⟨ph, p, h.monitor_local rfl ?_ ?_ ?_, le_rfl, fun _ => ?_⟩
      · cases toReturn <;> rfl
      · cases toReturn <;> rfl
      · rintro sub - ⟨rfl, hflag, hargs, hcopied, -⟩
        have hcarries : Carries arg sub.call := fun w hw =>
          (hcopied w.1 not_mem_nil).trans (hargs w hw)
        cases hret : sub.ret with
        | true => exact ⟨hret, hret ▸ hflag, hcarries⟩
        | false => exact ⟨hret, hret ▸ hflag, hcarries⟩
      · refine Nat.add_lt_add_left ?_ (19 * p)
        cases toReturn
        · exact Nat.lt_succ_self 6
        · exact (by decide : 4 < 7)
    | cons f fs =>
      cases hact
      refine ⟨ph, p, h.monitor_local rfl rfl rfl ?_, le_rfl, fun _ => Nat.lt_succ_self _⟩
      rintro sub - ⟨hret, hflag, hargs, hcopied, hlen⟩
      refine ⟨hret, hflag, hargs, fun g hg => ?_, Nat.le_of_succ_le hlen⟩
      rw [update_apply]
      split_ifs with hgf
      · rw [hgf]
      · exact hcopied g fun hmem => (mem_cons.mp hmem).elim hgf hg
  | useStore arg v =>
    cases hact
    obtain ⟨sub, hsub, hserved, hret, rfl, hargs⟩ := h.monitor nofun
    refine ⟨_, p, h.monitor_leave (φ := .free) rfl rfl useFlag_free (fun k hk => ?_) rfl rfl h.polls
      h.count (fun _ => ⟨sub, hsub, hret, hargs⟩), le_rfl, fun _ => Nat.lt_succ_self _⟩
    -- no result has been asked for
    obtain ⟨⟨sub', hsub', hasked⟩, hphase⟩ := h.held _ k hk
    rw [hserved rfl] at hphase
    rcases hphase with hphase | hphase | hphase <;> cases hphase
    obtain rfl := Option.some.inj (hsub.symm.trans hsub')
    exact absurd (hret.symm.trans hasked) Bool.false_ne_true
  | exec toReturn arg =>
    cases hact
    refine ⟨ph, _, h.monitor_exec rfl, ?_, fun _ => ?_⟩
    · split_ifs
      · exact le_rfl
      · exact Nat.le_succ p
    · cases toReturn with
      | true => exact Nat.lt_succ_self (19 * p + 3)
      | false =>
        show 19 * p + 19 < 19 * (p + 1) + 4
        omega
  | retStore r' =>
    cases hact
    refine ⟨ph, p, h.monitor_put rfl rfl rfl ?_, le_rfl, fun _ => Nat.lt_succ_self _⟩
    rintro sub - ⟨hret, hflag, harg⟩
    exact ⟨.inr (hret.symm ▸ hflag), hret, hflag, harg⟩
  | flagStore v =>
    cases hact
    obtain ⟨sub, hsub, hserved, hret, rfl, harg⟩ := h.monitor nofun
    refine ⟨_, p + 1, h.monitor_leave (φ := .answered p) rfl rfl ⟨useFlag_answer, harg⟩
      (fun k hk => ?_) rfl rfl ?_ h.count (fun hp => absurd rfl hp), Nat.le_succ p, fun _ => ?_⟩
    · have hphase := (h.held _ k hk).2
      rw [hserved rfl] at hphase
      rcases hphase with hphase | hphase | hphase <;> cases hphase
      rfl
    · show (next + 1) % n = (p + 1) % n
      rw [show next = p % n from h.polls, Nat.mod_add_mod]
    · show 19 * p + 19 < 19 * (p + 1) + 1
      omega

/-! ### Runs -/

lemma Inv.start (h : (ring n).init s) : Inv n (fun _ => .free) 0 s := by
  obtain ⟨⟨slots, log⟩, client, monitor⟩ := s
  obtain ⟨hflag, hlog, hclient, hmonitor⟩ := h
  obtain rfl : log = {} := hlog
  obtain rfl : client = {} := hclient
  obtain rfl : monitor = {} := hmonitor
  exact ⟨hflag, trivial, nofun, fun _ => (Nat.zero_mod n).symm, nofun, fun hp => absurd rfl hp,
    (Nat.zero_mod n).symm, nofun, nofun, nofun, le_rfl, rfl, nofun, nofun, nofun⟩

lemma Monitor.act_submitted (n : ℕ) (r : Word) (m : Shared) (d : Monitor) :
    (d.act n r m).1.log.submitted = m.log.submitted := by
  obtain ⟨pc, next⟩ := d
  cases pc with
  | copy _ _ fs => cases fs <;> rfl
  | _ => rfl

lemma Inv.step {s' : State} (h : Inv n ph p s) (hstep : (ring n).step a s = some s') :
    ∃ ph' p', Inv n ph' p' s' ∧ s.mem.log.submitted.length ≤ s'.mem.log.submitted.length ∧
      p ≤ p' ∧ (p < s.mem.log.submitted.length →
        19 * p + s'.monitor.pc.left + Sysmon.polls [a] ≤ 19 * p' + s.monitor.pc.left) := by
  cases a with
  | client op =>
    obtain ⟨⟨m, c⟩, hact, rfl⟩ := Option.map_eq_some_iff.mp hstep
    obtain ⟨ph', hinv, hle⟩ := h.client_step hact
    exact ⟨ph', p, hinv, hle, le_rfl, fun _ => le_rfl⟩
  | monitor r =>
    obtain rfl := Option.some.inj hstep
    obtain ⟨ph', p', hinv, hahead⟩ := h.monitor_step (r := r) rfl
    have hsame := congrArg length (Monitor.act_submitted n r s.mem s.monitor)
    exact ⟨ph', p', hinv, hsame.ge, hahead⟩

lemma Inv.left_le (h : Inv n ph p s) : s.monitor.pc.left ≤ 19 := by
  cases hpc : s.monitor.pc with
  | copy toReturn arg fs =>
    obtain ⟨sub, -, -, hm⟩ := h.monitor (by rw [hpc]; nofun)
    rw [hpc] at hm
    have hlen : fs.length ≤ 8 := hm.2.2.2.2
    show 7 + fs.length ≤ 19
    omega
  | _ => exact of_decide_eq_true rfl

lemma MonitorPc.left_pos (pc : MonitorPc) : 0 < pc.left := by
  cases pc with
  | copy => exact Nat.lt_of_lt_of_le (by decide) (Nat.le_add_right 7 _)
  | _ => exact of_decide_eq_true rfl

lemma Inv.run {s' : State} : ∀ {l : List Act} {ph : ℕ → Phase} {p : ℕ} {s : State},
    Inv n ph p s → k < s.mem.log.submitted.length →
      (ring n).run (fun _ _ => true) l s = some s' → s'.mem.log.executed.length ≤ k →
        19 * p + Sysmon.polls l < 19 * k + s.monitor.pc.left
  | [], ph, p, s, h, hk, hrun, hnot => by
    cases hrun
    have hcount := h.count
    have hpos := s'.monitor.pc.left_pos
    show 19 * p + 0 < _
    omega
  | a :: l, ph, p, s, h, hk, hrun, hnot => by
    simp only [System.run, if_true] at hrun
    obtain ⟨s1, hstep, hrun⟩ := Option.bind_eq_some_iff.mp hrun
    obtain ⟨ph1, p1, h1, hsub, hle, hahead⟩ := h.step hstep
    have hrest := h1.run (Nat.lt_of_lt_of_le hk hsub) hrun hnot
    have hleft := h1.left_le
    have hahead := hahead (by omega)
    have hsum : Sysmon.polls (a :: l) = Sysmon.polls [a] + Sysmon.polls l := by
      cases a with
      | client => exact (Nat.zero_add _).symm
      | monitor => exact Nat.add_comm _ _
    rw [hsum]
    omega

lemma Inv.works (h : Inv n ph p s) : Works s := by
  have hpicked : s.mem.log.executed.length + s.monitor.pc.picked = p + s.monitor.pc.busy := by
    rw [h.count, Nat.add_assoc]
    cases s.monitor.pc <;> rfl
  refine ⟨?_, h.log.args, h.log.results, fun i hi hneed => ?_⟩
  · have hbound := h.bound
    omega
  · have hmine : ph i = .free ∨ ph i = .filling := by
      have hfits := h.client
      cases hpc : s.client.pc with
      | takeLoad | takeStore =>
        simp only [Client.takes, hpc, Option.some.injEq] at hi
        simp only [Client.Fits, hpc, hi] at hfits
        first
          | exact .inl hfits
          | exact .inl hfits.1
      | retLoad | retStore | fill | callLoad | callStore =>
        simp only [Client.takes, hpc, Option.some.injEq] at hi
        simp only [Client.Fits, hpc, hi] at hfits
        exact .inr hfits.1
      | idle | spin | wait | read | freeLoad | freeStore =>
        simp only [Client.takes, hpc] at hi
        cases hi
    rcases hneed with ⟨huses, rfl⟩ | ⟨k, sub, hk, hsub, rfl⟩ | ⟨k, hin⟩
    · obtain ⟨-, -, hserved, -⟩ := h.monitor (MonitorPc.ne_poll huses)
      rw [hserved huses] at hmine
      rcases hmine with hmine | hmine <;> cases hmine
    · have hq := h.queue k (hpicked ▸ hk) (List.getElem?_eq_some_iff.mp hsub).1
      rw [h.log.slot k sub hsub, hq] at hmine
      rcases hmine with hmine | hmine <;> cases hmine
    · have hphase := h.held_phase hin
      exact hmine.elim hphase.1 hphase.2

/-- **The ring is a queue.** In every state that the client and the monitor reach, the calls
executed are the first ones handed over, in this order and with their arguments, a result that has
been read is that of its call, and no slot is taken that either side needs. A call that has been
handed over is executed once the monitor has taken a number of steps. -/
theorem ring_works (h : (ring n).Reachable s) :
    Works s ∧ ∀ k l s', k < s.mem.log.submitted.length →
      (ring n).run (fun _ _ => true) l s = some s' → 19 * (k + 1) ≤ polls l →
        k < s'.mem.log.executed.length := by
  have hinv : ∃ ph p, Inv n ph p s := by
    refine h.invariant (I := fun s => ∃ ph p, Inv n ph p s) (fun s hs => ⟨_, _, Inv.start hs⟩)
      fun s a s' hI _ hstep => ?_
    obtain ⟨ph, p, hI⟩ := hI
    obtain ⟨ph', p', hI', -⟩ := hI.step hstep
    exact ⟨ph', p', hI'⟩
  obtain ⟨ph, p, hinv⟩ := hinv
  refine ⟨hinv.works, fun k l s' hk hrun hpolls => ?_⟩
  by_contra hnot
  have hrest := hinv.run hk hrun (Nat.le_of_not_lt hnot)
  have hleft := hinv.left_le
  omega

def empty : State := ⟨⟨fun _ => ⟨fun _ => 0, 0, 0⟩, {}⟩, {}, {}⟩

/-- A call is handed over and executed, and its result is read. -/
def askCurrent : List Act :=
  List.replicate 10 (.client (.submit .processorCurrent true)) ++ List.replicate 17 (.monitor 5) ++
    List.replicate 3 (.client (.collect 0 0))

theorem ring_works_askCurrent :
    ∃ s, (ring 51).run (fun _ _ => true) askCurrent empty = some s ∧
      s.mem.log.results = [(0, 5)] ∧ Works s := by
  obtain ⟨s, hs, hresults⟩ : ∃ s ∈ (ring 51).run (fun _ _ => true) askCurrent empty,
      s.mem.log.results = [(0, 5)] := by decide +kernel
  have hstart : (ring 51).Reachable empty := .start ⟨fun _ => rfl, rfl, rfl, rfl⟩
  have hreach := hstart.run (fun _ _ _ => trivial) hs
  exact ⟨s, hs, hresults, (ring_works hreach).1⟩

end Corey.Sync.Sysmon
