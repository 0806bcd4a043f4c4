import Corey.Lib.Keeps
import Corey.Mem.Forest

/-!
The ids that `page_alloc` is called with.

A page tree keeps the id it was made with and allocates its pages and blocks with it. So if the
ids that trees are made with have some property, and those of the callers have it, too, then
`page_alloc` is never called with an id that has not.
-/

namespace Corey.Mem

open Function Corey.Comp

variable {ok : ℕ → Prop} {base : List ℕ} {pid : ℕ} {α σ ι β : Type} {m : MemM α}

/-- Every id since `base` has the property. -/
def Asked (ok : ℕ → Prop) (base : List ℕ) (m : Memory) : Prop :=
  ∃ l, m.asked = l ++ base ∧ ∀ pid ∈ l, ok pid

lemma Asked.cons {m m' : Memory} (h : Asked ok base m) (hpid : ok pid)
    (hm : m'.asked = pid :: m.asked) : Asked ok base m' := by
  obtain ⟨l, hl, hok⟩ := h
  exact ⟨pid :: l, by rw [hm, hl, List.cons_append], List.forall_mem_cons.mpr ⟨hpid, hok⟩⟩

/-- The state beside the memory does not matter. -/
abbrev AskedIn (ok : ℕ → Prop) (base : List ℕ) (s : α × Memory) : Prop := True ∧ Asked ok base s.2

/-! ### Pages -/

lemma pageAlloc_cons (pid : ℕ) (m : Memory) :
    wp (pageAlloc pid) (fun _ t => t.asked = pid :: m.asked)
      (.all fun t => t.asked = pid :: m.asked) m := by
  have hfail : Stays (fun t : Memory => t.asked = pid :: m.asked) pageAllocFail :=
    .seq (.change fun _ h => h) (.raise _)
  rw [pageAlloc, wp_bind, wp_state, wp_bind, wp_change]
  refine wp_post ((?_ : Stays (fun t : Memory => t.asked = pid :: m.asked) _) _ rfl)
    fun _ _ ht => ht.1
  refine .ite hfail ?_
  split
  · exact .halt _
  · exact hfail
  · exact .bind (.need _ _) fun _ => .seq (.change fun _ h => h) <|
      .seq (.check _) <| .seq (.change fun _ h => h) (.done _)

lemma pageAlloc_asked (h : ok pid) : Stays (Asked ok base) (pageAlloc pid) := fun m hm =>
  wp_imp (pageAlloc_cons pid m) (fun _ _ ht => ⟨hm.cons h ht, trivial⟩)
    (fun _ _ ht => hm.cons h ht) fun _ _ ht => hm.cons h ht

lemma pageFree_asked (v : Ppn) : Stays (Asked ok base) (pageFree v) :=
  .bind .state fun _ => .ite (.done _) <| .bind (.need _ _) fun _ =>
    .seq (.check _) <| .seq (.change fun _ h => h) (.change fun _ h => h)

lemma pagetreeDecref_asked (p : Ppn) : Stays (Asked ok base) (pagetreeDecref p) :=
  .seq (.change fun _ h => h) <| .bind .state fun _ => .ite
    (.seq (.check _) (pageFree_asked p)) (.done _)

lemma pagetreeIncref_asked (p : Ppn) : Stays (Asked ok base) (pagetreeIncref p) :=
  .change fun _ h => h

lemma pagetreeFreeEnt_asked (e : PagetreeEntry) : Stays (Asked ok base) (pagetreeFreeEnt e) := by
  rw [pagetreeFreeEnt]
  split
  · exact pagetreeDecref_asked _
  · exact .done _

/-! ### Entries and blocks -/

lemma shared_asked (h : Stays (Asked ok base) m) :
    Stays (AskedIn ok base : σ × Memory → Prop) (shared m) :=
  .part h (fun _ h => h.2) fun _ _ _ h => ⟨trivial, h⟩

lemma change_asked {f : σ × Memory → σ × Memory} (h : ∀ s, (f s).2 = s.2) :
    Stays (AskedIn ok base) (change f : PtM σ Unit) :=
  .change fun s hs => ⟨trivial, (h s).symm ▸ hs.2⟩

lemma focus_asked {r : Ptr σ α} {m : PtM α β} (h : Stays (AskedIn ok base) m) :
    Stays (AskedIn ok base) (focus r m) :=
  .focus (I := fun _ => True) (J := fun _ => True) h (fun _ _ => trivial) fun _ _ _ _ => trivial

lemma pagetreeCopyPage_asked (h : ok pid) : Stays (AskedIn ok base) (pagetreeCopyPage pid) :=
  .bind (shared_asked (pageAlloc_asked h)) fun _ => .bind .state fun _ => .bind (.need _ _) fun _ =>
    .seq (shared_asked (.seq (.change fun _ h => h) <| .seq (.change fun _ h => h) <|
      .seq (pagetreeIncref_asked _) (pagetreeDecref_asked _))) (change_asked fun _ => rfl)

lemma ensureBlock_asked (h : ok pid) {l : ℕ} :
    Stays (AskedIn ok base) (ensureBlock pid : PtM (Slot (l + 1)) Unit) :=
  .bind .state fun _ => .ite
    (.bind (shared_asked (pageAlloc_asked h)) fun _ => .seq (shared_asked (.change fun _ h => h))
      (change_asked fun _ => rfl)) (.done _)

lemma pagetreeGetEntpIndirect_asked (h : ok pid) :
    ∀ l n, Stays (AskedIn ok base) (pagetreeGetEntpIndirect pid l n)
  | 0, _ => .done _
  | l + 1, _ => .seq (ensureBlock_asked h) <| .seq (.check _) <|
      focus_asked (pagetreeGetEntpIndirect_asked h l _)

lemma pagetreeGetEnt_asked (h : ok pid) (demand : Bool) (mode : PageSharingMode) :
    Stays (AskedIn ok base) (pagetreeGetEnt pid demand mode) := by
  have hbreak : Stays (AskedIn ok base) (breakSharing pid mode) :=
    .bind .state fun _ => .ite (.seq (.check _) (pagetreeCopyPage_asked h)) <| .ite
      (.seq (.check _) (.ite (pagetreeCopyPage_asked h) (.done _)))
      (.done _)
  have hdemand : Stays (AskedIn ok base) (demandPage pid demand) := by
    refine .bind .state fun _ => .ite (.bind (shared_asked (pageAlloc_asked h)).attempt fun r => ?_)
      (.done _)
    cases r with
    | error _ => exact .halt _
    | ok p => exact .seq (shared_asked (pagetreeIncref_asked p)) (change_asked fun _ => rfl)
  exact .seq hbreak <| .seq hdemand <| .bind .state fun _ => .done _

lemma pagetreePutEnt_asked (page : Option Ppn) : Stays (AskedIn ok base) (pagetreePutEnt page) := by
  have hincref : Stays (Asked ok base) (increfIf page) := by
    cases page with
    | none => exact .done _
    | some p => exact pagetreeIncref_asked p
  exact .bind .state fun _ => .seq (shared_asked (pagetreeFreeEnt_asked _)) <|
    .seq (shared_asked hincref) (change_asked fun _ => rfl)

lemma pagetreeFreeSlot_asked : ∀ {l : ℕ} (x : Slot l), Stays (Asked ok base) (pagetreeFreeSlot x)
  | 0, .ent e => pagetreeFreeEnt_asked e
  | _ + 1, .null => .done _
  | _ + 1, .block p f =>
    .seq (.loop (fun i => pagetreeFreeSlot_asked (f i)) _ _) (pageFree_asked p)

lemma copyEntIf_asked (h : ok pid) (mode : PageSharingMode) :
    Stays (AskedIn ok base) (copyEntIf mode pid) := by
  have hlast : Stays (AskedIn ok base) (focus Ptr.snd
      (change fun s => ({ s.1 with mode := mode }, s.2)) :
        PtM (PagetreeEntry × PagetreeEntry) Unit) := focus_asked (change_asked fun _ => rfl)
  refine .bind .state fun _ => .ite ?_ (.done _)
  refine .bind .state fun _ => .bind (.need _ _) fun src => .ite ?_ ?_
  · exact .bind (shared_asked (pageAlloc_asked h)) fun p =>
      .seq (focus_asked (change_asked fun _ => rfl)) <|
      .seq (shared_asked (.seq (pagetreeIncref_asked _) (.change fun _ h => h))) hlast
  · exact .seq (focus_asked (change_asked fun _ => rfl)) <|
      .seq (shared_asked (pagetreeIncref_asked _)) <|
      .seq (focus_asked (change_asked fun _ => rfl)) hlast

lemma pagetreeCopySlot_asked (h : ok pid) (mode : PageSharingMode) :
    ∀ l, Stays (AskedIn ok base) (pagetreeCopySlot mode pid l)
  | 0 => focus_asked (copyEntIf_asked h mode)
  | l + 1 => .bind .state fun _ => .ite
      (.seq (.check _) <| .bind (shared_asked (pageAlloc_asked h)) fun _ =>
        .seq (shared_asked (.change fun _ h => h)) <|
          .seq (focus_asked (change_asked fun _ => rfl)) <|
          .loop (fun _ => focus_asked (pagetreeCopySlot_asked h mode l)) _ _)
      (.done _)

/-! ### Trees -/

/-- The id of a tree has the property, and those `page_alloc` has been called with. -/
abbrev TreeAsked (ok : ℕ → Prop) (base : List ℕ) (s : Pagetree × Memory) : Prop :=
  ok s.1.pid ∧ Asked ok base s.2

lemma focusTree_asked {r : Ptr Pagetree σ} {m : PtM σ α} (h : Stays (AskedIn ok base) m)
    (hr : ∀ a pt, (r.set a pt).pid = pt.pid) : Stays (TreeAsked ok base) (focus r m) :=
  Gives.focus (I := fun pt : Pagetree => ok pt.pid) (J := fun _ => True) h (fun _ _ => trivial)
    fun pt a hpt _ => (hr a pt).symm ▸ hpt

lemma sharedTree_asked (h : Stays (Asked ok base) m) : Stays (TreeAsked ok base) (shared m) :=
  .part h (fun _ h => h.2) fun _ _ h h' => ⟨h.1, h'⟩

lemma set_pid (p : EntPtr) (e : PagetreeEntry) (pt : Pagetree) :
    ((entAt p).set e pt).pid = pt.pid := by
  cases p <;> rfl

lemma pagetreeGetEntp_asked (npage : ℕ) : Stays (TreeAsked ok base) (pagetreeGetEntp npage) := by
  rw [pagetreeGetEntp]
  split
  · exact .raise _
  · exact .done _
  · exact .bind_of .state fun s t ht hst => (Gives.seq (focusTree_asked
      (pagetreeGetEntpIndirect_asked (hst ▸ ht.1) _ _) fun _ _ => rfl)
      (.done _)) t ht

lemma pagetreeGetPage_asked (npage : ℕ) (mode : PageSharingMode) :
    Stays (TreeAsked ok base) (pagetreeGetPage npage mode) :=
  .bind (pagetreeGetEntp_asked npage) fun pe => .bind_of .state fun _ t ht hst =>
    focusTree_asked (pagetreeGetEnt_asked (hst ▸ ht.1) _ mode) (set_pid pe) t ht

lemma pagetreePutPage_asked (npage : ℕ) (page : Option Ppn) :
    Stays (TreeAsked ok base) (pagetreePutPage npage page) :=
  .bind (pagetreeGetEntp_asked npage) fun pe =>
    focusTree_asked (pagetreePutEnt_asked page) (set_pid pe)

lemma pagetreeFree_asked : Stays (TreeAsked ok base) pagetreeFree := by
  have hdirect : ∀ i, Stays (TreeAsked ok base) (freeDirect i) := fun _ =>
    .bind .state fun _ => .seq (sharedTree_asked (pagetreeFreeEnt_asked _))
      (focusTree_asked (change_asked fun _ => rfl) fun _ _ => rfl)
  have hindir : ∀ i, Stays (TreeAsked ok base) (freeIndir i) := fun _ =>
    .bind .state fun _ => .seq (sharedTree_asked (pagetreeFreeSlot_asked _))
      (focusTree_asked (change_asked fun _ => rfl) fun _ _ => rfl)
  exact .seq (.loop hdirect _ _) (.loop hindir _ _)

section Copy

variable {I : σ → Prop} {src dst : Ptr σ Pagetree}
  (hsrc : ∀ s, I s → ok (src.get s).pid) (hsrc' : ∀ s pt, I s → ok pt.pid → I (src.set pt s))
  (hdst : ∀ s, I s → ok (dst.get s).pid) (hdst' : ∀ s pt, I s → ok pt.pid → I (dst.set pt s))

include hsrc hsrc' hdst hdst' in
lemma focusBoth_asked {γ : Type} {r : Ptr Pagetree β} {q : Ptr Pagetree γ} {m : PtM (β × γ) α}
    (h : Stays (AskedIn ok base) m) (hr : ∀ a pt, (r.set a pt).pid = pt.pid)
    (hq : ∀ a pt, (q.set a pt).pid = pt.pid) :
    Stays (fun s : σ × Memory => I s.1 ∧ Asked ok base s.2)
      (focus ((src.comp r).both (dst.comp q)) m) := by
  refine .focus (J := fun _ => True) h (fun _ _ => trivial) fun s a hs _ => ?_
  have h1 : I (src.set (r.set a.1 (src.get s)) s) := hsrc' _ _ hs ((hr _ _).symm ▸ hsrc s hs)
  exact hdst' _ _ h1 ((hq _ _).symm ▸ hdst _ h1)

include hsrc hsrc' hdst hdst' in
lemma copyEntries_asked (h : ok pid) (mode : PageSharingMode) :
    Stays (fun s : σ × Memory => I s.1 ∧ Asked ok base s.2) (copyEntries src dst mode pid) :=
  .seq (.loop (fun _ => focusBoth_asked hsrc hsrc' hdst hdst' (copyEntIf_asked h mode)
      (fun _ _ => rfl) fun _ _ => rfl) _ _) <|
    .loop (fun _ => focusBoth_asked hsrc hsrc' hdst hdst' (pagetreeCopySlot_asked h mode _)
      (fun _ _ => rfl) fun _ _ => rfl) _ _

include hsrc hsrc' hdst hdst' in
lemma pagetreeCopy_asked (mode : PageSharingMode) :
    Stays (fun s : σ × Memory => I s.1 ∧ Asked ok base s.2) (pagetreeCopy src dst mode) := by
  have hfree : Stays (fun s : σ × Memory => I s.1 ∧ Asked ok base s.2) (focus dst pagetreeFree) :=
    .focus pagetreeFree_asked hdst hdst'
  have hdemand : ∀ d, Stays (fun s : σ × Memory => I s.1 ∧ Asked ok base s.2)
      (focus dst (change fun t => ({ t.1 with demand := d }, t.2)) : PtM σ Unit) := fun _ =>
    .focus (J := fun pt : Pagetree => ok pt.pid) (.change fun _ h => h) hdst hdst'
  refine .seq hfree <| .bind_of .state fun s t ht hst => ?_
  subst hst
  exact Gives.seq (hdemand _)
    (.onErr (copyEntries_asked hsrc hsrc' hdst hdst' (hdst _ ht.1) mode) hfree) s ht

end Copy

/-! ### Forests -/

namespace Forest

/-- The ids of all trees have the property. -/
structure Asks (ok : ℕ → Prop) (base : List ℕ) (s : Forest ι) : Prop where
  asked : Asked ok base s.mem
  tree : ∀ t, ok (s.tree t).pid

lemma onMem_asks (h : Stays (Asked ok base) m) : Stays (Asks ok base) (onMem m : ForestM ι α) :=
  .part h (fun _ h => h.asked) fun _ _ h h' => ⟨h', h.tree⟩

lemma drop_asks (p : Ppn) : Stays (Asks ok base) (drop p : ForestM ι Unit) :=
  .change fun _ h => ⟨h.asked, h.tree⟩

lemma takePage_asks (h : ok pid) : Stays (Asks ok base) (takePage pid : ForestM ι Ppn) :=
  .bind (onMem_asks (pageAlloc_asked h)) fun _ => .seq (.change fun _ h => ⟨h.asked, h.tree⟩)
    (.done _)

lemma givePage_asks (p : Ppn) : Stays (Asks ok base) (givePage p : ForestM ι Unit) :=
  .seq (onMem_asks (pageFree_asked p)) (drop_asks p)

variable [DecidableEq ι] {t : ι}

lemma Asks.set {s : Forest ι} {pt : Pagetree} (h : s.Asks ok base) (hpt : ok pt.pid)
    (u : ι) : ok (update s.tree t pt u).pid :=
  (forall_update_iff s.tree fun _ pt => ok pt.pid).mpr ⟨hpt, fun u _ => h.tree u⟩ u

lemma onTree_asks {m : PtM Pagetree α} (h : Stays (TreeAsked ok base) m) :
    Stays (Asks ok base) (onTree t m) :=
  .part h (fun _ h => ⟨h.tree t, h.asked⟩) fun _ _ h h' => ⟨h'.2, h.set h'.1⟩

lemma getPage_asks (t : ι) (npage : ℕ) (mode : PageSharingMode) :
    Stays (Asks ok base) (getPage t npage mode) := onTree_asks (pagetreeGetPage_asked npage mode)

lemma putNull_asks (t : ι) (npage : ℕ) : Stays (Asks ok base) (putNull t npage) :=
  onTree_asks (pagetreePutPage_asked npage none)

lemma putPage_asks (t : ι) (npage : ℕ) (p : Ppn) : Stays (Asks ok base) (putPage t npage p) :=
  .seq (onTree_asks (pagetreePutPage_asked npage _)) (drop_asks p)

lemma free_asks (t : ι) : Stays (Asks ok base) (free t) := onTree_asks pagetreeFree_asked

lemma initTree_asks (h : ok pid) (t : ι) (demand : Bool) :
    Stays (Asks ok base) (initTree t demand pid) :=
  .change fun _ hs => ⟨hs.asked, hs.set h⟩

lemma copy_asks (src dst : ι) (mode : PageSharingMode) :
    Stays (Asks ok base) (copy src dst mode) := by
  rw [copy]
  split_ifs
  · exact onTree_asks (pagetreeCopy_asked (I := fun pt : Pagetree => ok pt.pid) (fun _ h => h)
      (fun _ _ _ h => h) (fun _ h => h) (fun _ _ _ h => h) mode)
  · refine .part (pagetreeCopy_asked
      (I := fun s : Pagetree × Pagetree => ok s.1.pid ∧ ok s.2.pid) (fun _ h => h.1)
      (fun _ _ h h' => ⟨h', h.2⟩) (fun _ h => h.2) (fun _ _ h h' => ⟨h.1, h'⟩) mode)
      (fun _ h => ⟨⟨h.tree src, h.tree dst⟩, h.asked⟩) fun s r h h' => ⟨h'.2, fun u => ?_⟩
    exact Asks.set (s := { s with tree := update s.tree src r.1.1, mem := r.2 })
      ⟨h'.2, h.set h'.1.1⟩ h'.1.2 u

end Forest

end Corey.Mem
