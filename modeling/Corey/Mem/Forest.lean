import Corey.Lib.System
import Corey.Mem.Boot
import Corey.Mem.Copy

/-!
Page trees and their callers over one memory.

The state is a family of page trees, the pages callers have got from `page_alloc` and not yet
put into a tree, and the memory. The steps are the operations of `pagetree.h`, the allocation
and the release of a caller's page. An operation that returns an error is a step as well; one
that panics has no successor.
-/

namespace Corey.Mem

open Function Corey.Comp Finset Memory

variable {ι : Type} [DecidableEq ι] {p : Ppn}

@[ext]
structure Forest (ι : Type) where
  tree : ι → Pagetree
  hand : List Ppn
  mem : Memory

namespace Forest

inductive Op (ι : Type)
  | alloc (pid : ℕ)
  | release (p : Ppn)
  | getPage (t : ι) (npage : ℕ) (mode : PageSharingMode)
  | putPage (t : ι) (npage : ℕ) (page : Option Ppn)
  | copy (src dst : ι) (mode : PageSharingMode)
  | free (t : ι)
  | increfHw (p : Ppn)
  | decrefHw (p : Ppn)

abbrev ForestM (ι : Type) := Comp Errno (Forest ι)

def onMem {α : Type} (m : MemM α) : ForestM ι α :=
  zoom Forest.mem (fun m s => { s with mem := m }) m

def onTree {α : Type} (t : ι) (m : PtM Pagetree α) : ForestM ι α :=
  zoom (fun s => (s.tree t, s.mem))
    (fun r s => { s with tree := update s.tree t r.1, mem := r.2 }) m

def onTrees {α : Type} (t u : ι) (m : PtM (Pagetree × Pagetree) α) : ForestM ι α :=
  zoom (fun s => ((s.tree t, s.tree u), s.mem))
    (fun r s => { s with
      tree := update (update s.tree t r.1.1) u r.1.2
      mem := r.2 }) m

/-- A page from `page_alloc` that no tree holds yet. -/
def takePage (pid : ℕ) : ForestM ι Ppn := do
  let p ← onMem (pageAlloc pid)
  change fun s => { s with hand := p :: s.hand }
  pure p

def drop (p : Ppn) : ForestM ι Unit := change fun s => { s with hand := s.hand.erase p }

def givePage (p : Ppn) : ForestM ι Unit := do
  onMem (pageFree p)
  drop p

def getPage (t : ι) (npage : ℕ) (mode : PageSharingMode) : ForestM ι (Option Ppn) :=
  onTree t (pagetreeGetPage npage mode)

def putNull (t : ι) (npage : ℕ) : ForestM ι Unit := onTree t (pagetreePutPage npage none)

/-- A page that is put into a tree leaves its caller's hand when the tree has accepted it. -/
def putPage (t : ι) (npage : ℕ) (p : Ppn) : ForestM ι Unit := do
  onTree t (pagetreePutPage npage (some p))
  drop p

def copy (src dst : ι) (mode : PageSharingMode) : ForestM ι Unit :=
  if src = dst then onTree dst (pagetreeCopy Ptr.self Ptr.self mode)
  else onTrees src dst (pagetreeCopy Ptr.fst Ptr.snd mode)

def free (t : ι) : ForestM ι Unit := onTree t pagetreeFree

/-- `pagetree_init` overwrites what is there. -/
def initTree (t : ι) (demand : Bool) (pid : ℕ) : ForestM ι Unit :=
  change fun s => { s with tree := update s.tree t (pagetreeInit demand pid) }

def body : Op ι → ForestM ι Unit
  | .alloc pid => do
    let _ ← takePage pid
    pure ()
  | .release p => givePage p
  | .getPage t npage mode => do
    let _ ← getPage t npage mode
    pure ()
  | .putPage t npage none => putNull t npage
  | .putPage t npage (some p) => putPage t npage p
  | .copy src dst mode => copy src dst mode
  | .free t => free t
  | .increfHw p => onMem (pagetreeIncrefHw p)
  | .decrefHw p => onMem (pagetreeDecrefHw p)

/-- The trees are those of the family `T`, and a page that is given away is in hand. -/
def Legal (T : Finset ι) (s : Forest ι) : Op ι → Prop
  | .alloc _ => True
  | .release p => p ∈ s.hand
  | .getPage t _ _ => t ∈ T
  | .putPage t _ none => t ∈ T
  | .putPage t _ (some p) => t ∈ T ∧ p ∈ s.hand
  | .copy src dst _ => src ∈ T ∧ dst ∈ T
  | .free t => t ∈ T
  | .increfHw _ => True
  | .decrefHw _ => True

instance (T : Finset ι) (s : Forest ι) (op : Op ι) : Decidable (Legal T s op) := by
  unfold Legal
  split <;> infer_instance

end Forest

/-- The page trees of a family and their callers, on the managed pages `U`. -/
def forest (U : Finset Ppn) (T : Finset ι) : System (Forest ι) (Forest.Op ι) where
  init s := s.mem.Boot U ∧ s.hand = [] ∧
    ∀ t ∈ T, ∃ demand pid, s.tree t = pagetreeInit demand pid
  step op s := if Forest.Legal T s op then (Forest.body op).next s else none

/-! ### The ledger of a forest -/

def handLedger (l : List Ppn) : Ledger
  | .held p => l.count p
  | _ => 0

lemma handLedger_cons (p : Ppn) (l : List Ppn) :
    handLedger (p :: l) = handLedger l + one (.held p) := by
  funext u
  cases u with
  | held q => by_cases h : p = q <;> simp [handLedger, one_apply, h, eq_comm]
  | ent _ | node _ => simp [handLedger, one_apply]

lemma handLedger_erase {l : List Ppn} (hp : p ∈ l) :
    handLedger l = handLedger (l.erase p) + one (.held p) := by
  have hpos := List.count_pos_iff.mpr hp
  funext u
  cases u with
  | held q =>
    by_cases h : q = p
    · subst h
      simp only [handLedger, Pi.add_apply, one_apply, if_true, List.count_erase_self]
      omega
    · simp [handLedger, one_apply, h, List.count_erase_of_ne h]
  | ent q => simp [handLedger, one_apply]
  | node q => simp [handLedger, one_apply]

namespace Forest

variable {U : Finset Ppn} {T : Finset ι} {s s' : Forest ι} {t u : ι} {m : Memory} {R : Ledger}
  {mode : PageSharingMode}

/-- The uses of all pages by the trees and by callers. -/
def ledger (T : Finset ι) (s : Forest ι) : Ledger :=
  ∑ t ∈ T, (s.tree t).ledger + handLedger s.hand

def rest (T : Finset ι) (s : Forest ι) (t : ι) : Ledger :=
  ∑ u ∈ T.erase t, (s.tree u).ledger + handLedger s.hand

lemma ledger_update (ht : t ∈ T) (pt : Pagetree) (m : Memory) :
    ledger T { s with tree := update s.tree t pt, mem := m } = pt.ledger + s.rest T t := by
  simp only [ledger, rest, ← add_assoc]
  rw [sum_update (fun _ => Pagetree.ledger) s.tree ht pt]

lemma ledger_split (ht : t ∈ T) : s.ledger T = (s.tree t).ledger + s.rest T t := by
  have := ledger_update (s := s) ht (s.tree t) s.mem
  rwa [update_eq_self] at this

/-- The invariant: the pages are accounted for and no counter is full. -/
structure Sound (U : Finset Ppn) (T : Finset ι) (s : Forest ι) : Prop where
  balanced : Balanced U s.mem (s.ledger T)
  fits : Fits s.mem (s.ledger T)

/-- An operation starts where the references it may add still fit into the 32 bits of a
counter. -/
def Roomy (T : Finset ι) (s : Forest ι) : Op ι → Prop
  | .copy src _ _ => ∀ p, s.mem.refs (s.ledger T) p + (s.tree src).ledger (.ent p) < word32
  | .increfHw p => s.mem.refs (s.ledger T) p + 1 < word32
  | _ => True

/-- One tree and the uses `R` of the others account for the pages. -/
structure Backed (U : Finset Ppn) (R : Ledger) (r : Pagetree × Memory) : Prop where
  balanced : Balanced U r.2 (r.1.ledger + R)
  fits : Fits r.2 (r.1.ledger + R)

lemma Sound.backed (ht : t ∈ T) (h : s.Sound U T) : Backed U (s.rest T t) (s.tree t, s.mem) where
  balanced := ledger_split ht ▸ h.balanced
  fits := ledger_split ht ▸ h.fits

lemma Backed.sound {r : Pagetree × Memory} (ht : t ∈ T) (h : Backed U (s.rest T t) r) :
    Sound U T { s with tree := update s.tree t r.1, mem := r.2 } where
  balanced := by rw [ledger_update ht]; exact h.balanced
  fits := by rw [ledger_update ht]; exact h.fits

lemma Backed.of_empty {r : Pagetree × Memory} {L : Ledger} (he : r.1.Empty)
    (hb : Balanced U r.2 R) (hf : Fits m (L + R)) (hk : Kept R m r.2) : Backed U R r := by
  constructor <;> rw [he.ledger, zero_add]
  · exact hb
  · exact hf.of_kept hk fun p => Nat.le_add_left _ _

lemma wp_onTree {α : Type} {m : PtM Pagetree α} (ht : t ∈ T) (h : s.Sound U T)
    (hspec : ∀ R, Balanced U s.mem ((s.tree t).ledger + R) → Fits s.mem ((s.tree t).ledger + R) →
      m.Leaves (Backed U R) (s.tree t, s.mem)) : (onTree t m).Leaves (Sound U T) s := by
  obtain ⟨hb, hf⟩ := h.backed ht
  rw [onTree, Leaves, wp_zoom]
  exact wp_mono (hspec _ hb hf) (fun _ _ hr => hr.sound ht) fun _ _ hr => hr.sound ht

lemma getPage_sound (ht : t ∈ T) (h : s.Sound U T) (npage : ℕ) (mode : PageSharingMode) :
    (getPage t npage mode).Leaves (Sound U T) s := by
  refine wp_onTree ht h fun R hb hf => ?_
  refine wp_mono (pagetreeGetPage_spec hb hf npage mode) (fun _ r hr => ?_)
    fun _ r hr => ⟨hr.1.balanced, hf.of_walked hr.1⟩
  obtain ⟨p, pt1, m1, e, hgot⟩ := hr
  have hvalid := locate_valid hgot.place
  have hfit1 : Fits m1 (((s.tree t).get p).ledger + (pt1.others p + R)) := by
    have := hf.of_walked hgot.walked
    rw [Pagetree.ledger_split hvalid hgot.reached, add_assoc, hgot.walked.same.get p hvalid] at this
    exact this
  constructor <;> rw [hgot.tree, Pagetree.ledger_set hvalid hgot.reached, add_assoc]
  · exact hgot.balanced
  · exact hfit1.of_got hgot.kept hgot.got

lemma free_sound (ht : t ∈ T) (h : s.Sound U T) :
    (free t).Leaves (Sound U T) s := by
  refine wp_onTree ht h fun R hb hf => ?_
  refine wp_of_never (pagetreeFree_spec hb hf) fun _ r hr => ?_
  obtain ⟨hempty, -, -, -, hb', hk, -⟩ := hr
  exact .of_empty hempty hb' hf hk

lemma putPage_spec {pt : Pagetree} (page : Option Ppn) (h : Backed U (inHand page + R) (pt, m))
    (npage : ℕ) : wp (pagetreePutPage npage page) (fun _ => Backed U R)
      (.both (Backed U (inHand page + R))) (pt, m) := by
  obtain ⟨hb, hf⟩ := h
  refine wp_mono (pagetreePutPage_spec hb hf npage) (fun _ r hr => ?_)
    fun _ r hr => ⟨hr.1.balanced, hf.of_walked hr.1⟩
  obtain ⟨p, pt1, m1, hplace, hwalk, hreach, htree, hbal, hk, -⟩ := hr
  refine ⟨hbal, fun q => ?_⟩
  have hvalid := locate_valid hplace
  rw [htree, Pagetree.ledger_set hvalid hreach]
  have hfit1 := hf.of_walked hwalk q
  rw [Pagetree.ledger_split hvalid hreach] at hfit1
  have hword : 1 < word32 := by decide
  cases page with
  | none =>
    simp only [refs, Pi.add_apply, hk.hw, ledger_none, Pi.zero_apply] at hfit1 ⊢
    omega
  | some x =>
    by_cases hx : q = x
    · -- the page was in hand, so this is its only reference
      subst hx
      have hheld := hwalk.balanced
      rw [inHand, add_left_comm, add_comm] at hheld
      obtain ⟨hent, -, -, hhw, -⟩ := hheld.held_alone
      rw [Pagetree.ledger_split hvalid hreach] at hent
      simp only [refs, Pi.add_apply, hk.hw, ledger_some, one_apply, if_true] at hent hhw ⊢
      omega
    · simp only [refs, Pi.add_apply, hk.hw, ledger_some, one_apply] at hfit1 ⊢
      rw [if_neg (by simpa using hx)]
      omega

lemma Sound.null (ht : t ∈ T) (h : s.Sound U T) :
    Backed U (inHand none + s.rest T t) (s.tree t, s.mem) := by
  rw [inHand, zero_add]
  exact h.backed ht

lemma putNull_sound (ht : t ∈ T) (h : s.Sound U T) (npage : ℕ) :
    (putNull t npage).Leaves (Sound U T) s := by
  rw [putNull, onTree, Leaves, wp_zoom]
  refine wp_mono (putPage_spec none (h.null ht) npage) (fun _ _ hr => hr.sound ht) fun _ r hr => ?_
  rw [Exits.both, inHand, zero_add] at hr
  exact hr.sound ht

lemma rest_hand (hp : p ∈ s.hand) :
    s.rest T t = inHand (some p) + rest T { s with hand := s.hand.erase p } t := by
  simp only [rest, inHand, handLedger_erase hp]
  rw [← add_assoc, add_comm]

lemma Sound.hand (ht : t ∈ T) (hp : p ∈ s.hand) (h : s.Sound U T) :
    Backed U (inHand (some p) + rest T { s with hand := s.hand.erase p } t) (s.tree t, s.mem) :=
  rest_hand hp ▸ h.backed ht

lemma putPage_sound (ht : t ∈ T) (hp : p ∈ s.hand) (h : s.Sound U T) (npage : ℕ) :
    (putPage t npage p).Leaves (Sound U T) s := by
  simp only [Leaves, putPage, onTree, drop, wp_rules, wp_zoom]
  refine wp_mono (putPage_spec (some p) (h.hand ht hp) npage) (fun _ r hr => ?_) fun _ r hr => ?_
  · exact hr.sound (s := { s with hand := s.hand.erase p }) ht
  · rw [← rest_hand hp] at hr
    exact hr.sound ht

section

omit [DecidableEq ι]

/-- The pages in hand are `l` now: no tree has changed, and no page that one holds. -/
structure Handed (U : Finset Ppn) (T : Finset ι) (l : List Ppn) (s s' : Forest ι) : Prop where
  sound : s'.Sound U T
  tree : s'.tree = s.tree
  hand : s'.hand = l
  kept : Kept (s.ledger T) s.mem s'.mem

lemma takePage_spec (h : s.Sound U T) (pid : ℕ) :
    wp (takePage pid)
      (fun p s' => Handed U T (p :: s.hand) s s' ∧ s'.mem.failures = s.mem.failures)
      ⟨fun e s' => Handed U T s.hand s s' ∧ e = .noMem ∧ s.mem.failures < s'.mem.failures,
       fun _ _ => False⟩ s := by
  simp only [takePage, onMem, wp_rules, wp_zoom]
  refine wp_mono (pageAlloc_spec h.balanced pid) (fun p m hm => ?_) fun _ m hm => ?_
  · have hl : ledger T { s with hand := p :: s.hand, mem := m } = s.ledger T + one (.held p) := by
      simp only [ledger, handLedger_cons, add_assoc]
    refine ⟨⟨⟨by rw [hl]; exact hm.1, ?_⟩, rfl, rfl, hm.2.1⟩, hm.2.2.2⟩
    rw [hl]
    exact h.fits.of_kept hm.2.1 fun q => by simp [one_apply]
  · exact ⟨⟨⟨hm.2.1, h.fits.of_kept hm.2.2.1 fun _ => Nat.le_refl _⟩, rfl, rfl, hm.2.2.1⟩, hm.1,
      hm.2.2.2⟩

lemma givePage_spec (h : s.Sound U T) (hp : p ∈ s.hand) :
    wp (givePage p) (fun _ s' => Handed U T (s.hand.erase p) s s' ∧
      s'.mem.failures = s.mem.failures) .never s := by
  have hl : s.ledger T = ledger T { s with hand := s.hand.erase p } + one (.held p) := by
    simp only [ledger, handLedger_erase hp, add_assoc]
  have hfit := h.fits
  rw [hl] at hfit
  simp only [givePage, onMem, drop, wp_rules, wp_zoom]
  refine wp_of_never (pageFree_spec (hl ▸ h.balanced)) fun _ m hm => ⟨⟨⟨hm.1, ?_⟩, rfl, rfl, ?_⟩,
    hm.2.2⟩
  · exact hfit.of_kept hm.2.1 fun q => Nat.le_add_right _ _
  · exact hl ▸ hm.2.1.mono fun q hq => by simpa [one_apply] using hq

lemma increfHw_sound (h : s.Sound U T) (hroom : s.mem.refs (s.ledger T) p + 1 < word32) :
    (onMem (pagetreeIncrefHw p)).Leaves (Sound U T) s := by
  rw [onMem, Leaves, wp_zoom]
  refine wp_mono (pagetreeIncrefHw_spec h.balanced hroom) (fun _ m hm => ⟨hm.1, fun q => ?_⟩)
    fun _ _ => False.elim
  exact Nat.lt_of_le_of_lt (hm.2 q) (Nat.max_lt.mpr ⟨h.fits q, hroom⟩)

lemma decrefHw_sound (h : s.Sound U T) : (onMem (pagetreeDecrefHw p)).Leaves (Sound U T) s := by
  rw [onMem, Leaves, wp_zoom]
  exact wp_mono (pagetreeDecrefHw_spec h.balanced (h.fits p)) (fun _ m hm => ⟨hm.1,
    fun q => Nat.lt_of_le_of_lt (hm.2 q) (h.fits q)⟩) (fun _ _ => False.elim)

end

def rest₂ (T : Finset ι) (s : Forest ι) (t u : ι) : Ledger :=
  ∑ v ∈ (T.erase u).erase t, (s.tree v).ledger + handLedger s.hand

lemma ledger_update₂ (ht : t ∈ T) (hu : u ∈ T) (hne : t ≠ u) (pt pu : Pagetree) (m : Memory) :
    ledger T { s with tree := update (update s.tree t pt) u pu, mem := m } =
      pt.ledger + (pu.ledger + s.rest₂ T t u) := by
  have hmem : t ∈ T.erase u := mem_erase.mpr ⟨hne, ht⟩
  have hsum : ∑ v ∈ T.erase u, (update s.tree t pt v).ledger =
      pt.ledger + ∑ v ∈ (T.erase u).erase t, (s.tree v).ledger := by
    rw [← add_sum_erase _ _ hmem, update_self]
    congr 1
    exact sum_congr rfl fun v hv => by
      rw [update_of_ne (ne_of_mem_erase hv)]
  rw [ledger_update (s := { s with tree := update s.tree t pt }) hu]
  show pu.ledger + (∑ v ∈ T.erase u, (update s.tree t pt v).ledger + handLedger s.hand) = _
  rw [hsum, add_assoc, add_left_comm]
  rfl

lemma ledger_split₂ (ht : t ∈ T) (hu : u ∈ T) (hne : t ≠ u) :
    s.ledger T = (s.tree t).ledger + ((s.tree u).ledger + s.rest₂ T t u) := by
  have := ledger_update₂ (s := s) ht hu hne (s.tree t) (s.tree u) s.mem
  rwa [update_eq_self, update_eq_self] at this

lemma roomToCopy {pt pu : Pagetree}
    (h : ∀ p, m.refs (pt.ledger + (pu.ledger + R)) p + pt.ledger (.ent p) < word32) :
    RoomToCopy U R pt m := by
  intro d m' _ hhw hgrow p
  have h1 := h p
  have h2 := hgrow p
  have hword : 1 < word32 := by decide
  simp only [refs, Pi.add_apply, hhw] at h1 h2 ⊢
  omega

def withTree (s : Forest ι) (t : ι) (pt : Pagetree) (m : Memory) : Forest ι :=
  { s with tree := update s.tree t pt, mem := m }

lemma copy_spec (ht : t ∈ T) (hu : u ∈ T) (hne : t ≠ u)
    (h : s.Sound U T) (hroom : RoomToCopy U (s.rest₂ T t u) (s.tree t) s.mem) : wp (copy t u mode)
      (fun _ s' => s'.Sound U T ∧ s'.mem.failures = s.mem.failures ∧
        ∃ pt' pu' d1 m', s' = (s.withTree t pt' m').withTree u pu' m' ∧ d1.Empty ∧
          d1.demand = (s.tree t).demand ∧
          (∀ i, (d1.ptDirect i).mode = ((s.tree u).ptDirect i).mode) ∧
          TreeCopied mode s.mem m' (s.tree t) d1 pt' pu' ∧
          Kept ((s.tree t).ledger + s.rest₂ T t u) s.mem m')
      ⟨fun e s' => e = .noMem ∧ s'.Sound U T ∧ s.mem.failures < s'.mem.failures,
       fun _ _ => False⟩ s := by
  have hb := h.balanced
  have hf := h.fits
  rw [ledger_split₂ ht hu hne] at hb hf
  have hup : ∀ r : (Pagetree × Pagetree) × Memory,
      Balanced U r.2 (r.1.1.ledger + (r.1.2.ledger + s.rest₂ T t u)) ∧
        Fits r.2 (r.1.1.ledger + (r.1.2.ledger + s.rest₂ T t u)) →
      Sound U T { s with
        tree := update (update s.tree t r.1.1) u r.1.2, mem := r.2 } :=
    fun r hr => ⟨by rw [ledger_update₂ ht hu hne]; exact hr.1,
      by rw [ledger_update₂ ht hu hne]; exact hr.2⟩
  rw [copy, if_neg hne, onTrees, wp_zoom]
  refine wp_mono (pagetreeCopy_spec hb hf hroom mode) (fun _ r hr => ?_) fun _ r hr => ?_
  · obtain ⟨hb', hf', -, hk, hfail, d1, hempty, -, hdem, hmodes, hcopied⟩ := hr
    exact ⟨hup r ⟨hb', hf'⟩, hfail, r.1.1, r.1.2, d1, r.2, rfl, hempty, hdem, hmodes, hcopied, hk⟩
  · obtain ⟨he, hb', hsrc, hempty, hk, hfail⟩ := hr
    refine ⟨he, hup r ⟨hb', ?_⟩, hfail⟩
    rw [hsrc, hempty.ledger]
    exact hf.of_kept hk fun p => by simp only [Pi.add_apply, Pi.zero_apply]; omega

lemma copy_sound (ht : t ∈ T) (hu : u ∈ T) (h : s.Sound U T)
    (hroom : ∀ p, s.mem.refs (s.ledger T) p + (s.tree t).ledger (.ent p) < word32) :
    (copy t u mode).Leaves (Sound U T) s := by
  by_cases hne : t = u
  · subst hne
    rw [copy, if_pos rfl]
    refine wp_onTree ht h fun R hb hf => ?_
    refine wp_of_never (pagetreeCopy_self_spec hb hf mode) fun _ r hr => ?_
    obtain ⟨hempty, hb', hk⟩ := hr
    exact .of_empty hempty hb' hf hk
  · rw [ledger_split₂ ht hu hne] at hroom
    exact wp_mono (copy_spec ht hu hne h (roomToCopy hroom)) (fun _ _ hs => hs.1)
      fun _ _ hs => hs.2.1

/-- **One step keeps the pages accounted for.** -/
lemma Sound.step {op : Op ι} (h : s.Sound U T) (hroom : Roomy T s op)
    (hs : (forest U T).step op s = some s') : s'.Sound U T := by
  simp only [forest] at hs
  split_ifs at hs with hlegal
  refine next_of_wp ?_ hs
  cases op with
  | alloc pid =>
    simp only [body, wp_rules]
    exact wp_mono (takePage_spec h pid) (fun _ _ hs => hs.1.sound) fun _ _ hs => hs.1.sound
  | release p => exact wp_of_never (givePage_spec h hlegal) fun _ _ hs => hs.1.sound
  | getPage t npage mode =>
    simp only [body, wp_rules]
    exact getPage_sound hlegal h npage mode
  | putPage t npage page =>
    cases page with
    | none => exact putNull_sound hlegal h npage
    | some p => exact putPage_sound hlegal.1 hlegal.2 h npage
  | copy src dst mode => exact copy_sound hlegal.1 hlegal.2 h hroom
  | free t => exact free_sound hlegal h
  | increfHw p => exact increfHw_sound h hroom
  | decrefHw p => exact decrefHw_sound h

lemma Sound.init (h : (forest U T).init s) : s.Sound U T := by
  obtain ⟨hboot, hhand, htree⟩ := h
  have hl : s.ledger T = 0 := by
    rw [ledger, hhand, sum_eq_zero fun t ht => ?_]
    · funext u
      cases u <;> rfl
    · obtain ⟨demand, pid, hinit⟩ := htree t ht
      rw [hinit]
      exact Pagetree.Empty.ledger ⟨fun _ _ => rfl, fun _ _ => rfl⟩
  refine ⟨by rw [hl]; exact hboot.balanced, fun p => ?_⟩
  simp [hl, refs, hboot.noPins, word32_pos]

/-! ### Where a page is -/

/-- The number of entries of all trees that hold a page. -/
def entries (T : Finset ι) (s : Forest ι) (p : Ppn) : ℕ :=
  ∑ t ∈ T, (s.tree t).ledger (.ent p)

/-- The number of parent slots of all trees that point to a page as a block. -/
def parents (T : Finset ι) (s : Forest ι) (p : Ppn) : ℕ :=
  ∑ t ∈ T, (s.tree t).ledger (.node p)

inductive Situation | free | held | node | data

/-- A page is in a situation: the counts that make up the situation, and no other use. -/
def At (T : Finset ι) (s : Forest ι) (p : Ppn) : Situation → Prop
  | .free => s.mem.freeCount p = 1 ∧ s.hand.count p = 0 ∧ s.parents T p = 0 ∧
      s.entries T p = 0 ∧ (s.mem.info p).piHwRef = 0 ∧ (s.mem.info p).piFreepage = true ∧
      (s.mem.info p).piRef = 0
  | .held => s.mem.freeCount p = 0 ∧ s.hand.count p = 1 ∧ s.parents T p = 0 ∧
      s.entries T p = 0 ∧ (s.mem.info p).piHwRef = 0 ∧ (s.mem.info p).piFreepage = false ∧
      (s.mem.info p).piRef = 0
  | .node => s.mem.freeCount p = 0 ∧ s.hand.count p = 0 ∧ s.parents T p = 1 ∧
      s.entries T p = 0 ∧ (s.mem.info p).piHwRef = 0 ∧ (s.mem.info p).piFreepage = false ∧
      (s.mem.info p).piRef = 0
  | .data => s.mem.freeCount p = 0 ∧ s.hand.count p = 0 ∧ s.parents T p = 0 ∧
      (s.mem.info p).piFreepage = false ∧ 0 < (s.mem.info p).piRef ∧
      (s.mem.info p).piRef = s.entries T p + (s.mem.info p).piHwRef

section

omit [DecidableEq ι]

lemma ledger_ent (p : Ppn) : s.ledger T (.ent p) = s.entries T p := by
  simp [ledger, entries, handLedger, Finset.sum_apply]

lemma ledger_node (p : Ppn) : s.ledger T (.node p) = s.parents T p := by
  simp [ledger, parents, handLedger, Finset.sum_apply]

lemma slot_held : ∀ {l : ℕ} (x : Slot l) (p : Ppn), x.ledger (.held p) = 0
  | 0, .ent ⟨none, _⟩, _ => rfl
  | 0, .ent ⟨some _, _⟩, _ => by simp [Slot.ledger, one_apply]
  | _ + 1, .null, _ => rfl
  | _ + 1, .block _ f, p => by
    have ih := fun i => slot_held (f i) p
    simp [Slot.ledger, one_apply, Finset.sum_apply, ih]

lemma tree_held (pt : Pagetree) (p : Ppn) : pt.ledger (.held p) = 0 := by
  have hent : ∀ e : PagetreeEntry, e.ledger (.held p) = 0 := fun e => slot_held (.ent e) p
  simp [Pagetree.ledger, Finset.sum_apply, hent, slot_held]

lemma ledger_held (p : Ppn) : s.ledger T (.held p) = s.hand.count p := by
  simp [ledger, handLedger, Finset.sum_apply, tree_held]

lemma Sound.at (h : s.Sound U T) (hp : p ∈ U) : ∃! x, s.At T p x := by
  have hacc := h.balanced.page p
  have honce := hacc.once
  have href := hacc.ref
  have hfree := hacc.free
  rw [Nat.mod_eq_of_lt (h.fits p)] at href
  simp only [refs, ledger_ent, ledger_node, ledger_held, hp, if_true] at honce href
  have hflag : (s.mem.info p).piFreepage = false ↔ s.mem.freeCount p = 0 := by
    rw [← Bool.not_eq_true, hfree]
    omega
  have huniq : ∀ x y, s.At T p x → s.At T p y → x = y := by
    intro x y hx hy
    cases x <;> cases y <;> simp only [At] at hx hy <;> first | rfl | omega
  rcases Nat.eq_zero_or_pos (s.mem.info p).piRef with hz | hpos
  · rcases Nat.eq_zero_or_pos (s.mem.freeCount p) with hf | hf
    · rcases Nat.eq_zero_or_pos (s.hand.count p) with hh | hh
      · exact ⟨.node, ⟨hf, hh, by omega, by omega, by omega, hflag.mpr hf, hz⟩,
          fun y hy => huniq _ _ hy ⟨hf, hh, by omega, by omega, by omega, hflag.mpr hf, hz⟩⟩
      · have hat : s.At T p .held := ⟨hf, by omega, by omega, by omega, by omega, hflag.mpr hf, hz⟩
        exact ⟨.held, hat, fun y hy => huniq _ _ hy hat⟩
    · have hat : s.At T p .free :=
        ⟨by omega, by omega, by omega, by omega, by omega, hfree.mpr hf, hz⟩
      exact ⟨.free, hat, fun y hy => huniq _ _ hy hat⟩
  · have hat : s.At T p .data := ⟨by omega, by omega, by omega, hflag.mpr (by omega), hpos, href⟩
    exact ⟨.data, hat, fun y hy => huniq _ _ hy hat⟩

end

lemma sound_of_reach {s : Forest ι} (h : (forest U T).Reach (Roomy T) s) : s.Sound U T :=
  h.invariant (fun _ => Sound.init) fun _ _ _ hs hroom hstep => hs.step hroom hstep

/-- **Reference counts are exact as long as they fit.** In every run of the page trees and
their callers in which no operation starts where the references it may add would fill a
32-bit counter, and in which allocations fail as they like, every managed page is free, or in
one caller's hand, or a block with one parent, or a data page whose count is the number of its
entries and pins, and is only one of these. -/
theorem page_in_one_situation {U : Finset Ppn} {T : Finset ι} {s : Forest ι}
    (h : (forest U T).Reach (Roomy T) s) {p : Ppn} (hp : p ∈ U) : ∃! x, s.At T p x :=
  (sound_of_reach h).at hp

/-- Two trees that allocate on demand, on a machine of four pages. -/
def pair : Forest ℕ where
  tree _ := pagetreeInit true 0
  hand := []
  mem := bootMemory 4

/-- The first tree gets a page behind a block, and the second one is copied from it: the page is
shared, and there are two blocks. -/
lemma copied_reach : ∃ s, (forest (range 4) {0, 1}).Reach (Roomy {0, 1}) s ∧
    s.entries {0, 1} 1 = 2 ∧ s.parents {0, 1} 2 = 1 ∧ s.hand = [] ∧
    ∀ p < 4, (s.mem.info p).piHwRef = 0 := by
  obtain ⟨f, hf, s, hs, hroom, hfacts⟩ :
      ∃ f ∈ (forest (range 4) {0, 1}).step (.getPage 0 3 pageSharedCow) pair,
      ∃ s ∈ (forest (range 4) {0, 1}).step (.copy 0 1 pageSharedCow) f,
      (∀ p < 4, f.mem.refs (f.ledger {0, 1}) p + (f.tree 0).ledger (.ent p) < word32) ∧
      s.entries {0, 1} 1 = 2 ∧ s.parents {0, 1} 2 = 1 ∧ s.hand = [] ∧
      ∀ p < 4, (s.mem.info p).piHwRef = 0 := by decide +kernel
  have hinit : (forest (range 4) {0, 1}).init pair :=
    ⟨bootMemory_boot 4, rfl, fun _ _ => ⟨true, 0, rfl⟩⟩
  have hreach : (forest (range 4) {0, 1}).Reach (Roomy {0, 1}) f :=
    (System.Reach.start hinit).next (a := .getPage 0 3 pageSharedCow) trivial hf
  have hsound := sound_of_reach hreach
  refine ⟨s, hreach.next (a := .copy 0 1 pageSharedCow) (fun p => ?_) hs, hfacts⟩
  by_cases hp : p < 4
  · exact hroom p hp
  · -- a page the machine does not have is in no tree
    have hnone : f.entries {0, 1} p = 0 := by
      by_contra hpos
      rw [← ledger_ent] at hpos
      exact hp (mem_range.mp (hsound.balanced.mem_of_used (.inl (Nat.pos_of_ne_zero hpos))))
    have hle : (f.tree 0).ledger (.ent p) ≤ f.entries {0, 1} p :=
      single_le_sum (f := fun t => (f.tree t).ledger (.ent p)) (fun _ _ => Nat.zero_le _)
        (by decide)
    have hfits := hsound.fits p
    omega

/-- The shared page is one of data, and the copied block is a block. -/
theorem page_in_one_situation_copied :
    ∃ s, (forest (Finset.range 4) {0, 1}).Reach (Roomy {0, 1}) s ∧ s.entries {0, 1} 1 = 2 ∧
      s.parents {0, 1} 2 = 1 ∧ (∃! x, s.At {0, 1} 1 x) ∧ ∃! x, s.At {0, 1} 2 x := by
  obtain ⟨s, hs, hshared, hblock, -⟩ := copied_reach
  exact ⟨s, hs, hshared, hblock, page_in_one_situation hs (by decide),
    page_in_one_situation hs (by decide)⟩

/-- One tree that allocates on demand, on a machine of one page. -/
def single : Forest ℕ where
  tree _ := pagetreeInit true 0
  hand := []
  mem := bootMemory 1

lemma single_init : (forest (range 1) {0}).init single :=
  ⟨bootMemory_boot 1, rfl, fun _ _ => ⟨true, 0, rfl⟩⟩

/-- The page of that machine has been demanded. -/
def demanded : Forest ℕ :=
  ((forest (Finset.range 1) {0}).step (.getPage 0 0 pageSharedCow) single).getD single

/-- The demanded page has been pinned `k` times. -/
def pinned (k : ℕ) : Forest ℕ :=
  { demanded with
    mem := demanded.mem.setInfo 0
      { piRef := (1 + k) % word32, piHwRef := k, piFreepage := false } }

lemma pinned_zero : pinned 0 = demanded := by
  have hinfo : demanded.mem.info 0 = { piRef := 1, piFreepage := false } := rfl
  have hsame : demanded.mem.setInfo 0 (demanded.mem.info 0) = demanded.mem := by
    simp [setInfo]
  have hmem : (pinned 0).mem = demanded.mem := hsame ▸ congrArg (demanded.mem.setInfo 0) hinfo.symm
  exact congrArg (fun m => { demanded with mem := m }) hmem

lemma pinned_step {k : ℕ} (hk : k + 1 < word32) :
    (forest (range 1) {0}).step (.increfHw 0) (pinned k) = some (pinned (k + 1)) := by
  have hinfo : (pinned k).mem.info 0 =
      { piRef := (1 + k) % word32, piHwRef := k, piFreepage := false } := by simp [pinned]
  have href : (1 + k) % word32 = 1 + k := Nat.mod_eq_of_lt (by omega)
  show (body (.increfHw 0)).next (pinned k) = _
  refine next_eq_of_wp ?_
  simp only [body, onMem, wp_zoom, pagetreeIncrefHw, pagetreeIncref, wp_rules, hinfo, href,
    setInfo_info, update_self, setInfo_setInfo]
  refine ⟨fun _ => ⟨fun _ => ?_, fun hno => hno (by omega)⟩, fun hno => hno (by omega)⟩
  simp only [pinned, setInfo_setInfo, atomicInc, Nat.add_assoc, Nat.mod_eq_of_lt hk]

lemma pinned_reachable : ∀ k < word32, (forest (range 1) {0}).Reachable (pinned k)
  | 0, _ => by
    rw [pinned_zero]
    exact (System.Reach.start single_init).next (a := .getPage 0 0 pageSharedCow) trivial rfl
  | k + 1, hk => (pinned_reachable k (by omega)).next trivial (pinned_step hk)

/-- **A counter can wrap.** After `2 ^ 32 - 1` pins the count of the one data page is 0, while
its entry and all the pins are still there, and the page is in none of the situations. -/
theorem page_in_no_situation :
    ∃ s, (forest (Finset.range 1) {0}).Reachable s ∧ 0 ∈ Finset.range 1 ∧ s.entries {0} 0 = 1 ∧
      (s.mem.info 0).piHwRef = 2 ^ 32 - 1 ∧ (s.mem.info 0).piRef = 0 ∧ ¬ ∃ x, s.At {0} 0 x := by
  have href : ((pinned (word32 - 1)).mem.info 0).piRef = 0 := by
    simp [pinned, word32]
  have hfree : (pinned (word32 - 1)).mem.freeCount 0 = 0 := by
    simp only [pinned, freeCount_setInfo]
    rfl
  refine ⟨pinned (word32 - 1), pinned_reachable _ (by decide), by decide, by rfl, ?_, href, ?_⟩
  · simp [pinned, word32]
  · rintro ⟨x, hx⟩
    have hnode : (pinned (word32 - 1)).parents {0} 0 = 0 := by rfl
    have hhand : (pinned (word32 - 1)).hand.count 0 = 0 := by rfl
    cases x <;> simp only [At] at hx <;> omega

/-! ### Nothing is lost -/

/-- Trees have been freed, and nothing else has changed. -/
structure Freed (U : Finset Ppn) (T : Finset ι) (l : List ι) (s s' : Forest ι) : Prop where
  sound : s'.Sound U T
  empty : ∀ t, t ∈ l ∨ (s.tree t).Empty → (s'.tree t).Empty
  hand : s'.hand = s.hand
  pins : ∀ p, (s'.mem.info p).piHwRef = (s.mem.info p).piHwRef

lemma free_freed (ht : t ∈ T) (h : s.Sound U T) :
    ∃ s', (forest U T).step (.free t) s = some s' ∧ Freed U T [t] s s' := by
  obtain ⟨hb, hf⟩ := h.backed ht
  obtain ⟨_, r, hr, hempty, -, -, -, hb', hk, -⟩ := ok_of_never (pagetreeFree_spec hb hf)
  refine ⟨{ s with tree := update s.tree t r.1, mem := r.2 }, ?_, (Backed.of_empty hempty hb' hf
    hk).sound ht, fun u hu => ?_, rfl, hk.hw⟩
  · simp only [forest, if_pos (show Legal T s (.free t) from ht), body, free, onTree, next, zoom,
      hr]
  · by_cases hut : u = t
    · rw [hut]
      simpa using hempty
    · simpa [hut] using hu

lemma freed_all {l : List ι} (hl : ∀ t ∈ l, t ∈ T) (h : s.Sound U T) :
    ∃ s', (forest U T).run (fun _ _ => true) (l.map .free) s = some s' ∧ Freed U T l s s' := by
  induction l generalizing s with
  | nil => exact ⟨s, rfl, h, fun t ht => ht.resolve_left (by simp), rfl, fun _ => rfl⟩
  | cons t l ih =>
    obtain ⟨s1, hs1, h1⟩ := free_freed (hl t List.mem_cons_self) h
    obtain ⟨s2, hs2, h2⟩ := ih (fun u hu => hl u (List.mem_cons_of_mem t hu)) h1.sound
    refine ⟨s2, ?_, h2.sound, fun u hu => h2.empty u ?_, h2.hand.trans h1.hand,
      fun p => (h2.pins p).trans (h1.pins p)⟩
    · simpa [System.run, hs1] using hs2
    · rw [List.mem_cons] at hu
      rcases hu with (rfl | hu) | hu
      · exact .inr (h1.empty u (.inl (List.mem_singleton_self u)))
      · exact .inl hu
      · exact .inr (h1.empty u (.inr hu))

/-- **No page is lost.** After every run in which no counter is filled the trees can be freed, in
any order, and every page that no caller holds and nobody has pinned is then on a free list. -/
theorem all_pages_come_back {l : List ι} (h : (forest U T).Reach (Roomy T) s)
    (hl : ∀ t, t ∈ l ↔ t ∈ T) :
    ∃ s', (forest U T).run (fun _ _ => true) (l.map .free) s = some s' ∧
      ∀ p ∈ U, p ∉ s.hand → (s.mem.info p).piHwRef = 0 → s'.At T p .free := by
  obtain ⟨s', hrun, hfreed⟩ := freed_all (fun t => (hl t).mp) (sound_of_reach h)
  refine ⟨s', hrun, fun p hp hhand hpin => ?_⟩
  have hzero : ∀ u, ∑ t ∈ T, (s'.tree t).ledger u = 0 := fun u =>
    sum_eq_zero fun t ht => by rw [(hfreed.empty t (.inl ((hl t).mpr ht))).ledger]; rfl
  obtain ⟨x, hx, -⟩ := hfreed.sound.at hp
  have hent := hzero (.ent p)
  have hnode := hzero (.node p)
  have hcount : s'.hand.count p = 0 := by rw [hfreed.hand, List.count_eq_zero_of_not_mem hhand]
  have hpins := (hfreed.pins p).trans hpin
  cases x with
  | free => exact hx
  | _ => simp only [At, parents, entries] at hx; omega

theorem all_pages_come_back_copied :
    ∃ s s', (forest (range 4) {0, 1}).Reach (Roomy {0, 1}) s ∧ s.entries {0, 1} 1 = 2 ∧
      s.parents {0, 1} 2 = 1 ∧
      (forest (range 4) {0, 1}).run (fun _ _ => true) [.free 0, .free 1] s = some s' ∧
      ∀ p < 4, s'.At {0, 1} p .free := by
  obtain ⟨s, hs, hshared, hblock, hhand, hpins⟩ := copied_reach
  obtain ⟨s', hrun, hfree⟩ := all_pages_come_back (l := [0, 1]) hs (by simp)
  exact ⟨s, s', hs, hshared, hblock, hrun, fun p hp =>
    hfree p (mem_range.mpr hp) (by simp [hhand]) (hpins p hp)⟩

end Forest

end Corey.Mem
