import Corey.Kern.Lookup
import Corey.Mem.Allocator

/-!
The ids of CPUs that pages are allocated for.

A system call may name the CPU next to which the pages of a new object are to be. The id is kept
in the object, in its page trees, arrays and maps, and each page they need later on is allocated
with it. So it is an invariant that all ids kept are ids of CPUs, as long as those that are named
by calls are.
-/

namespace Corey.Kern

open Corey.Comp Corey.Mem

variable {n : ℕ} {ok : ℕ → Prop} {base : List ℕ} {pid : ℕ} {α β : Type} {s : Machine} {m : KM α}
  {src : Kobj} {c : Syscall} {a : Act} {f : α → KM β}

lemma Serves.asking (h : ∀ s₀, Serves ⟨n, ok, base, s₀⟩ m) : Asking n ok base m :=
  Tracks.asking h

lemma kobjectGcScan_asks : Asking n ok base kobjectGcScan := by
  refine .bind archCpu_asks fun cpu => .bind .state fun s => ?_
  cases (s.koGcList cpu).head? with
  | none => exact .done _
  | some ko =>
    exact .bind (deref_asks _) fun _ => .bind archCpu_asks fun _ =>
      .seq (globals_asks fun _ => rfl) <|
        .ite (.seq (gcCb_asks ko) (kobjectFree_asks ko)) (.done _)

/-! ### System calls -/

/-- The call finds a segment that can be copied. -/
def Machine.Copies (s : Machine) (src : Kobj) (obj : SobjRef) (mode : PageSharingMode) : Prop :=
  (mode = pageSharedCor ∨ mode = pageSharedCow ∨ mode = pageExcl) ∧
    ∃ ko, ((processorCoObj src obj (some .segment)).result s).map Prod.fst = some ko ∧
      s.live ko = true ∧ (s.obj ko).koType = .segment

/-- The device is there and has not been given to anyone. -/
def Machine.HasDevice (s : Machine) (did : ℕ) : Prop :=
  0 < did ∧ did ≤ s.ndev ∧ s.alloced (did - 1) = false

/-- The id that pages are going to be allocated with has the property. The id of a processor is
checked by the call itself; ids are 32 bits wide. -/
def Syscall.PidOk (ok : ℕ → Prop) (src : Kobj) (s : Machine) : Syscall → Prop
  | .deviceAlloc _ did pid => s.HasDevice did → ok (pid % word32)
  | .shareAlloc _ _ pid => ok (pid % word32)
  | .segmentAlloc _ _ pid => ok (pid % word32)
  | .segmentCopy _ obj mode pid => s.Copies src obj mode → ok (pid % word32)
  | .atAlloc _ _ pid => ok (pid % word32)
  | _ => True

lemma deviceAlloc_asks {did : ℕ} (hs : s.Asks n ok base) (h : s.HasDevice did → ok pid) :
    wp (deviceAlloc did pid) (fun _ t => t.Asks n ok base ∧ True)
      (.all (Machine.Asks n ok base)) s := by
  by_cases hd : s.HasDevice did
  · exact Serves.asking (fun _ => deviceAlloc_acts (Set.mem_univ _) (h hd) did) s hs
  · -- the call ends before there is an object
    rw [deviceAlloc, wp_bind, wp_state]
    split_ifs with hdid hbusy
    · exact hs
    · exact hs
    · exact absurd ⟨by omega, by omega, by simpa using hbusy⟩ hd

lemma sysSegmentCopy_asks {obj : SobjRef} {mode : PageSharingMode}
    (hs : s.Asks n ok base) (h : s.Copies src obj mode → ok (pid % word32)) (dstSh : ℕ) :
    wp (sysSegmentCopy src dstSh obj mode pid) (fun _ t => t.Asks n ok base ∧ True)
      (.all (Machine.Asks n ok base)) s := by
  refine wp_bind_run (Serves.asking (fun _ => processorCoObj_acts (Set.mem_univ _) src obj
    (some .segment)) s hs) fun ko t hrun ht => ?_
  have hkin := (wp_ok ((Looks.refl s).after (processorCoObj_looks _ _ _)) hrun).kin ko
  by_cases hc : s.Copies src obj mode
  · exact Serves.asking (fun _ => imported_acts (Set.mem_univ _)
      (segmentCopy_acts (Set.mem_univ _) (h hc) ko mode) src dstSh) t ht.1
  · -- the call ends before there is a new segment
    have hfound : ((processorCoObj src obj (some .segment)).result s).map Prod.fst = some ko := by
      rw [result_eq_some.mpr hrun]
      rfl
    simp only [segmentCopy, wp_rules, wp_derefAs]
    refine ⟨fun hl htype => ⟨fun _ => ht.1, fun hmode => absurd ⟨?_, ko, hfound, ?_, ?_⟩ hc⟩,
      fun _ _ => ht.1, fun _ => ht.1⟩
    · tauto
    · exact hkin.1.symm.trans hl
    · exact hkin.2.2 ▸ htype

lemma kernSyscall_asks (hs : s.Asks n ok base)
    (h : c.PidOk ok src s) : wp (kernSyscall src c) (fun _ t => t.Asks n ok base ∧ True)
      (.all (Machine.Asks n ok base)) s := by
  have hgo : (∀ pid ∈ c.pid?, ok pid) → wp (kernSyscall src c) (fun _ t => t.Asks n ok base ∧ True)
      (.all (Machine.Asks n ok base)) s := fun hp =>
    Tracks.asking (fun _ => kernSyscall_moves src hp) s hs
  have hone : ∀ {pid : ℕ}, ok pid → ∀ p ∈ some pid, ok p := fun h _ hp => Option.some.inj hp ▸ h
  cases c with
  | deviceAlloc sh did pid =>
    refine wp_bind_run (deviceAlloc_asks hs h) fun dv t _ ht => ?_
    exact Serves.asking
      (fun _ => .seq (processorImportObj_acts (Set.mem_univ _) _ _ _) (idOf_acts _)) t ht.1
  | segmentCopy dstSh obj mode pid => exact sysSegmentCopy_asks hs h dstSh
  | shareAlloc _ _ _ | segmentAlloc _ _ _ | atAlloc _ _ _ => exact hgo (hone h)
  | _ => exact hgo nofun

/-! ### Events -/

/-- The id a call names is that of a CPU, or the one that stands for the CPU itself. -/
def Event.PidOk (s : Machine) (e : Event) : Prop :=
  ∀ src c, e.act.call (s.at e.cpu) = some (src, c) →
    c.PidOk (ValidPid s.ncpu) src (s.at e.cpu)

lemma act_asks (hs : s.Asks n ok base) (h : ∀ src c, a.call s = some (src, c) → c.PidOk ok src s) :
    wp a.body (fun _ t => t.Asks n ok base ∧ True) (.all (Machine.Asks n ok base)) s := by
  cases a with
  | syscall c =>
    simp only [Act.body, theProcessor, wp_rules, wp_processorSched]
    refine ⟨fun src hsrc => ?_, fun _ => hs⟩
    exact wp_post (kernSyscall_asks hs (h src c (by simp [Act.call, hsrc]))) fun _ _ ht => ht
  | gc => exact kobjectGcScan_asks s hs
  | scan => exact shareActionScan_asks s hs
  | poll dv c =>
    simp only [Act.body, devicePoll, wp_rules, wp_archCpu, wp_derefAs, wp_attempt]
    refine ⟨fun hdv => ⟨fun hl ht => ⟨fun src hsrc => ?_, fun _ => hs⟩, fun _ _ => hs,
      fun _ => hs⟩, fun _ => hs⟩
    have hcall : (Act.poll dv c).call s = some (src, c) := by
      rw [Act.call, if_pos ⟨hdv, hl, ht⟩, hsrc]
      rfl
    exact wp_mono (kernSyscall_asks hs (h src c hcall)) (fun _ _ ht => ht)
      fun _ _ ht => ⟨ht, trivial⟩
  | _ =>
    refine Tracks.asking (fun _ => act_moves ?_ ?_ ?_) s hs
    · rintro ⟨⟩
    · rintro ⟨⟩
    · rintro _ ⟨⟩

lemma Machine.Asks.at (h : s.Asks n ok base) (cpu : ℕ) : (s.at cpu).Asks n ok base :=
  ⟨⟨h.forest.asked, h.forest.tree⟩, h.darray, h.obj, h.ncpu, h.cpus, h.zero⟩

/-! ### Runs -/

lemma bareMachine_asks (h : ok 0) (hn : ∀ pid < n, ok pid) (k ndev : ℕ) :
    (bareMachine k n ndev).Asks n ok [] :=
  ⟨⟨⟨[], rfl, by simp⟩, fun _ => h⟩, fun _ => h, fun _ => ⟨h, h, h⟩, rfl, hn, h⟩

lemma userBootstrap_cpu (k ndev : ℕ) :
    wp userBootstrap (fun _ _ => False) .any (bareMachine k 0 ndev) := by
  have hbare : (bareMachine k 0 ndev).Asks 0 (fun _ => True) [] :=
    bareMachine_asks trivial nofun k ndev
  rw [userBootstrap, wp_bind]
  refine wp_weaken (Serves.asking (fun _ => shareAlloc_acts (Set.mem_univ _) trivial _) _ hbare)
    fun sh t ht => ?_
  have hcpus : t.ncpu ≤ 0 := ht.1.ncpu.le
  simp only [processorAlloc, allocProcessor, wp_bind, wp_state, if_pos hcpus]
  exact trivial

lemma asks_of_init (h : kernel.init s) : s.Asks s.ncpu (ValidPid s.ncpu) [] := by
  obtain ⟨k, d, ncpu, ndev, -, hb⟩ := h
  obtain ⟨t, hbt, rfl⟩ := Option.map_eq_some_iff.mp hb
  obtain ⟨⟨u, t'⟩, hr, rfl⟩ := Option.map_eq_some_iff.mp hbt
  have hrun := result_eq_some.mp hr
  have hpos : 0 < ncpu := by
    rcases Nat.eq_zero_or_pos ncpu with rfl | hpos
    · exact (wp_ok (userBootstrap_cpu k ndev) hrun).elim
    · exact hpos
  have hbare : (bareMachine k ncpu ndev).Asks ncpu (ValidPid ncpu) [] :=
    bareMachine_asks (.inr hpos) (fun _ => .inr) k ndev
  obtain ⟨ht, -⟩ := wp_ok (Tracks.asking (fun _ => userBootstrap_acts (.inr hpos)) _ hbare) hrun
  have hncpu : (t'.denying d).ncpu = ncpu := ht.ncpu
  rw [hncpu]
  exact ⟨⟨ht.forest.asked, ht.forest.tree⟩, ht.darray, ht.obj, ht.ncpu, ht.cpus, ht.zero⟩

lemma asks_of_reach (h : kernel.Reach (fun s e => e.PidOk s) s) :
    s.Asks s.ncpu (ValidPid s.ncpu) [] := by
  refine System.Reach.invariant (I := fun s => s.Asks s.ncpu (ValidPid s.ncpu) [])
    (fun _ => asks_of_init) (fun s e s' hs hok hstep => ?_) h
  simp only [kernel, Event.step] at hstep
  split_ifs at hstep
  have hs' : s'.Asks s.ncpu (ValidPid s.ncpu) [] := next_of_wp
    (wp_mono (act_asks (hs.at e.cpu) hok) (fun _ _ ht => ht.1) (fun _ _ ht => ht)) hstep
  rwa [hs'.ncpu]

/-! ### Calls that use the id -/

/-- However `m` ends, it has called `page_alloc` with the id. -/
def Calls (pid : ℕ) (m : KM α) : Prop :=
  ∀ s, wp m (fun _ t => pid ∈ t.mem.asked) (Exits.all fun t => pid ∈ t.mem.asked) s

lemma mem_asked_stays (h : ∀ n base, Asking n (fun _ => True) base m) :
    Stays (fun s => pid ∈ s.mem.asked) m := by
  intro s hs
  have hmem : ∀ t : Machine, t.Asks s.ncpu (fun _ => True) s.mem.asked → pid ∈ t.mem.asked := by
    intro t ht
    obtain ⟨l, hl, -⟩ := ht.forest.asked
    rw [Machine.mem, hl]
    exact List.mem_append_right l hs
  have hself : s.Asks s.ncpu (fun _ => True) s.mem.asked :=
    ⟨⟨⟨[], rfl, fun _ _ => trivial⟩, fun _ => trivial⟩, fun _ => trivial,
      fun _ => ⟨trivial, trivial, trivial⟩, rfl, fun _ _ => trivial, trivial⟩
  exact wp_imp (h s.ncpu s.mem.asked s hself) (fun _ t ht => ⟨hmem t ht.1, trivial⟩)
    (fun _ t ht => hmem t ht) fun _ t ht => hmem t ht

lemma wp_bind_calls (hm : wp m (fun _ t => pid ∈ t.mem.asked) (.all fun t => pid ∈ t.mem.asked) s)
    (hf : ∀ a n base, Asking n (fun _ => True) base (f a)) :
    wp (m >>= f) (fun _ t => pid ∈ t.mem.asked) (.all fun t => pid ∈ t.mem.asked) s :=
  wp_bind.mpr (wp_post hm fun a t ht =>
    wp_post (mem_asked_stays (hf a) t ht) fun _ _ hu => hu.1)

lemma Calls.bind (hm : Calls pid m)
    (hf : ∀ a n base, Asking n (fun _ => True) base (f a)) : Calls pid (m >>= f) := fun s =>
  wp_bind_calls (hm s) hf

lemma kobjectAlloc_calls (type : KobjType) (pid : ℕ) : Calls pid (kobjectAlloc type pid) := by
  have htake : Calls pid (onForest (Forest.takePage pid)) := fun s => by
    have hmem : ∀ m : Memory, m.asked = pid :: s.mem.asked → pid ∈ m.asked := fun m hm => by
      rw [hm]
      exact List.mem_cons_self
    simp only [Forest.takePage, Forest.onMem, wp_onForest, wp_rules, wp_zoom]
    exact wp_imp (pageAlloc_cons pid s.mem) (fun _ m hm => hmem m hm) (fun _ m hm => hmem m hm)
      fun _ m hm => hmem m hm
  exact htake.bind fun _ _ _ => .bind idAlloc_asks fun _ => bear_asks fun _ =>
    ⟨trivial, trivial, trivial⟩

lemma segmentAlloc_calls (pid : ℕ) : Calls pid (segmentAlloc pid) :=
  (kobjectAlloc_calls _ pid).bind fun _ _ _ => Serves.asking fun _ => .seq (modSegment_acts _ _) <|
    .seq (onArrays_acts (darrayInit_asks trivial _ _ _)) (.done _)

lemma syscall_calls (h : ∀ pid ∈ (kernSyscall src c s).2.mem.asked, ok pid) : c.PidOk ok src s := by
  have hok : ∀ {pid : ℕ} {m : KM ℕ}, wp m (fun _ t => pid ∈ t.mem.asked)
      (.all fun t => pid ∈ t.mem.asked) s → kernSyscall src c s = m s → ok pid := by
    intro pid m hm hc
    exact h pid (hc ▸ state_of_wp hm)
  have himport : ∀ {sh : ℕ} (ko : Kobj) (n : ℕ) (base : List ℕ),
      Asking n (fun _ => True) base (do processorImportObj src sh ko; idOf ko) := fun _ _ _ =>
    Serves.asking fun _ => .seq (processorImportObj_acts (Set.mem_univ _) _ _ _) (idOf_acts _)
  cases c with
  | deviceAlloc sh did pid =>
    rintro ⟨hpos, hle, hfree⟩
    have hdid : ¬ (s.ndev < did ∨ did = 0) := by omega
    have hbusy : ¬ s.alloced (did - 1) = true := by simp [hfree]
    refine hok (wp_bind_calls ?_ himport) rfl
    rw [deviceAlloc, wp_bind, wp_state, if_neg hdid, if_neg hbusy, wp_bind, wp_change]
    exact (kobjectAlloc_calls _ _).bind (fun _ _ _ =>
      .seq (modObj_asks fun _ _ => ⟨trivial, trivial, trivial⟩) (.done _)) _
  | shareAlloc sh mask pid =>
    refine hok (Calls.bind ((kobjectAlloc_calls _ _).bind fun _ _ _ => ?_) (fun _ _ _ => ?_) s) rfl
    · exact .seq (.loop (fun _ => onForest_asks (Forest.initTree_asks trivial _ _)) _ _) <|
        .seq (modObj_asks fun _ h => ⟨h.koPid, trivial, h.processor⟩) (.done _)
    · exact Serves.asking fun _ => .seq (processorImportObj_acts (Set.mem_univ _) _ _ _) <|
        .seq (sharemapAdd_acts (Set.mem_univ _) _ _) (idOf_acts _)
  | segmentAlloc sh numBytes pid =>
    refine hok (Calls.bind (segmentAlloc_calls _) (fun _ _ _ => ?_) s) rfl
    exact Serves.asking fun _ => .seq (segmentSetNbytes_acts _ _) <|
      .seq (processorImportObj_acts (Set.mem_univ _) _ _ _) (idOf_acts _)
  | segmentCopy dstSh obj mode pid =>
    rintro ⟨hmode, ko, hfound, hl, ht⟩
    obtain ⟨⟨ko, t⟩, hres, rfl⟩ := Option.map_eq_some_iff.mp hfound
    have hrun := result_eq_some.mp hres
    have hkin := (wp_ok ((Looks.refl s).after (processorCoObj_looks _ _ _)) hrun).kin ko
    refine hok (wp_bind.mpr (wp_of_ok hrun (wp_bind_calls ?_ himport))) rfl
    rw [segmentCopy, wp_bind, wp_derefAs, if_neg (by tauto)]
    refine ⟨fun _ _ => ?_, fun _ hno => absurd (hkin.2.2.trans ht) hno, fun hno => ?_⟩
    · exact (segmentAlloc_calls _).bind (fun _ _ _ => Serves.asking fun _ =>
        .seq (.ite (segmentRemoveCb_acts _ _) (.done _)) <|
          .seq (onArrays_acts (darrayCopy_asks _ _ _)) (.done _)) t
    · exact absurd ((hkin.1.trans hl).symm.trans hno) nofun
  | atAlloc sh interior pid =>
    exact hok (Calls.bind ((kobjectAlloc_calls _ _).bind fun a _ _ =>
      Serves.asking fun _ => setUpTree_acts trivial a interior) himport s) rfl
  | _ => trivial

lemma body_of_call (h : a.call s = some (src, c)) : (a.body s).2 = (kernSyscall src c s).2 := by
  have hrun := wp_final (kernSyscall src c) s
  refine state_of_wp (I := fun t => t = (kernSyscall src c s).2) ?_
  cases a with
  | syscall c' =>
    obtain ⟨src', hsrc, hc⟩ := Option.map_eq_some_iff.mp h
    cases hc
    simp only [Act.body, theProcessor, wp_bind, wp_processorSched, hsrc, wp_pure]
    exact hrun
  | poll dv c' =>
    simp only [Act.call] at h
    split_ifs at h with hdv
    obtain ⟨src', hsrc, hc⟩ := Option.map_eq_some_iff.mp h
    cases hc
    obtain ⟨hmon, hl, ht⟩ := hdv
    simp only [Act.body, devicePoll, wp_bind, wp_archCpu, wp_state, wp_require, wp_derefAs,
      wp_attempt, wp_pure]
    refine ⟨fun _ => ⟨fun _ _ => ?_, fun _ hno => absurd ht hno,
      fun hno => absurd (hl.symm.trans hno) (by simp)⟩, fun hno => absurd hmon hno⟩
    rw [hsrc]
    exact hrun
  | _ => cases h

/-- **Which ids reach the allocator.** In a run in which every id that a call names, and uses, is
that of a CPU or stands for the calling one, `page_alloc` has only been called with such ids; and
one more step, whichever it is and however it ends, leaves that so exactly if its id is one, too. -/
theorem allocation_pids_valid_iff {s : Machine} (h : kernel.Reach (fun s e => e.PidOk s) s)
    (e : Event) :
    (∀ pid ∈ (e.act.body (s.at e.cpu)).2.mem.asked, ValidPid s.ncpu pid) ↔ e.PidOk s := by
  have hs := (asks_of_reach h).at e.cpu
  constructor
  · intro hall src c hcall
    rw [body_of_call hcall] at hall
    exact syscall_calls hall
  · intro hok pid hpid
    have hend := state_of_wp (wp_post (act_asks hs hok) fun _ _ ht => ht.1)
    obtain ⟨l, hl, hvalid⟩ := hend.forest.asked
    rw [Machine.mem, hl, List.append_nil] at hpid
    exact hvalid pid hpid

/-- The first processor makes a segment of two pages next to CPU `pid`. -/
def segmentNextTo (pid : ℕ) : Event := ⟨0, .syscall (.segmentAlloc 1 (2 * pgsize) pid)⟩

lemma segmentNextTo_pidOk (h : ValidPid s.ncpu (pid % word32)) : (segmentNextTo pid).PidOk s := by
  intro src c hcall
  obtain ⟨_, _, hc⟩ := Option.map_eq_some_iff.mp hcall
  cases hc
  exact h

theorem allocation_pids_valid_iff_segment :
    ∃ s, kernel.Reach (fun s e => e.PidOk s) s ∧ (segmentNextTo 0xFFFFFFFF).PidOk s ∧
      0xFFFFFFFF ∈ ((segmentNextTo 0xFFFFFFFF).act.body (s.at 0)).2.mem.asked ∧
      ∀ pid ∈ ((segmentNextTo 0xFFFFFFFF).act.body (s.at 0)).2.mem.asked, ValidPid s.ncpu pid := by
  obtain ⟨s, hs, hx⟩ := reach_of_bootRun 40 2 []
    (P := fun s => 0xFFFFFFFF ∈ ((segmentNextTo 0xFFFFFFFF).act.body (s.at 0)).2.mem.asked)
    (fun _ _ => false) (fun s e => e.PidOk s) (fun _ _ => nofun) (by decide +kernel)
  have hok : (segmentNextTo 0xFFFFFFFF).PidOk s := segmentNextTo_pidOk (.inl (by decide))
  exact ⟨s, hs, hok, hx, (allocation_pids_valid_iff hs _).mpr hok⟩

/-- No CPU has the number 5000, and `page_alloc` is asked for a page next to it. -/
theorem allocation_pid_of_no_cpu :
    ∃ s, kernel.Reachable s ∧ 5000 ∈ ((segmentNextTo 5000).act.body (s.at 0)).2.mem.asked ∧
      ¬ ValidPid s.ncpu 5000 :=
  reachable_of_bootRun 40 2 [] (by decide +kernel)

end Corey.Kern
