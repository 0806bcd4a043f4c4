import Corey.Kern.Darray
import Corey.Kern.Map
import Corey.Kern.Pmap

/-!
The state of the kernel.

Kernel objects are named by the order in which they were allocated. In the source an object is
a page that holds a header and a union; here it is a record with a component for each member
of the union, of which only the one its type names is used. An object that has been freed
stays in the table as a dead one, so that a pointer to it can be told from a good one. The
page trees of all objects form one forest.
-/

namespace Corey.Kern

open Function Corey.Comp Corey.Mem

inductive KobjType | segment | addressTree | processor | share | device
  deriving DecidableEq, Repr

/-- The values of `kobject_type_t`; `kobj_ntypes` is 5 and `kobj_any` is 6. -/
def KobjType.code : KobjType → ℕ
  | .segment => 0
  | .addressTree => 1
  | .processor => 2
  | .share => 3
  | .device => 4

structure SobjRef where
  share : ℕ := 0
  object : ℕ := 0
  deriving DecidableEq

/-- The page trees an object can have. -/
inductive Field
  | sgPages | atUaddrmap | atAddrmap
  | mapBack (cur : Bool)
  | shBlob (cpu : ℕ)
  deriving DecidableEq

abbrev TreeId := Kobj × Field

/-- `struct address_mapping2`, named by its address tree and its index there. -/
structure AmRef where
  tree : Kobj
  slot : ℕ
  deriving DecidableEq

structure Segment where
  sgMapList : List AmRef := []

structure UAddressMapping where
  type : ℕ := 0
  object : SobjRef := {}
  kslot : ℕ := 0
  flags : ℕ := 0
  va : ℕ := 0
  startPage : ℕ := 0
  numPages : ℕ := 0
  deriving DecidableEq

/-- `struct address_mapping2`. Without an `am_kobj` the mapping is not in use. -/
structure AddressMapping where
  amKobj : Option Kobj := none
  amParent : Kobj := 0
  amPs : Kobj := 0
  amSh : ℕ := 0
  amVaFirst : ℕ := 0
  amVaLast : ℕ := 0
  amAtSlot : ℕ := 0

/-- The lookup cache of an address tree is empty when `ref.object` is 0. -/
structure ObjCache where
  ref : SobjRef := {}
  ko : Kobj := 0
  psId : ℕ := 0

/-- The reverse lookup cache; `uam` is the index of the slot it points to. -/
structure RangeCache where
  vaStart : ℕ := 0
  vaEnd : ℕ := 0
  uam : Option ℕ := none

/-- Where a tree sends the faults of its processors. -/
structure Utrap where
  entry : ℕ := 0
  stackBase : ℕ := 0
  stackTop : ℕ := 0
  deriving DecidableEq

structure AddressTree where
  atPsList : List Kobj := []
  atPgmap : Option Pagemap := none
  atInterior : Bool := false
  atMapList : List AmRef := []
  uaddrmap : ℕ → UAddressMapping := fun _ => {}
  addrmap : ℕ → AddressMapping := fun _ => {}
  atObj : ObjCache := {}
  atUtrap : Utrap := {}

inductive PsMode | reg | vm | mon
  deriving DecidableEq

/-- `mask` is an `int`; its owner is the processor it is part of. -/
structure Sharemap where
  map : Map Kobj := {}
  mask : ℕ := 0

structure Processor where
  psPid : ℕ := 0
  psRunning : Bool := false
  psHalt : Bool := false
  psMode : PsMode := .reg
  psSharemap : Sharemap := {}
  psMonitorObj : ℕ → SobjRef := fun _ => {}
  psAt : Option Kobj := none
  psAtref : SobjRef := {}

/-- A `share_blob` of a share: the CPU it belongs to and its number there. -/
structure Blob where
  cpu : ℕ
  idx : ℕ
  deriving DecidableEq

structure ShareInfo where
  siKo : Kobj := 0
  siCo : ℕ := 0
  siCnt : ℕ := 0

/-- The two functions that `sa_action` can be. -/
inductive ActionKind | ci | dec
  deriving DecidableEq

/-- A `share_action` lives in the blob `sa` of the share it acts on. -/
structure ShareAction where
  saSh : Kobj
  saSi : Blob
  saAction : ActionKind
  sa : Blob
  deriving DecidableEq

structure Share where
  shKobjectMap : Map Blob := {}
  info : Blob → ShareInfo := fun _ => {}
  free : ℕ → List Blob := fun _ => []
  npages : ℕ → ℕ := fun _ => 0
  shMask : ℕ := 0

/-- Of devices only the system monitors are modelled: `dvDh` is the number of the monitor. -/
structure Device where
  dvDh : ℕ := 0

structure Kobject where
  live : Bool := false
  koId : ℕ := 0
  koType : KobjType := .segment
  koRef : ℕ := 0
  koPid : ℕ := 0
  page : Ppn := 0
  sg : Segment := {}
  tree : AddressTree := {}
  ps : Processor := {}
  sh : Share := {}
  dv : Device := {}

/-- A system monitor executes calls for the processor that configured it. -/
structure SysmonDevice where
  src : Option Kobj := none
  numSlots : ℕ := 0
  nicCache : List (Kobj × Kobj) := []

structure Machine where
  forest : Forest TreeId
  darray : TreeId → Darray
  obj : Kobj → Kobject
  /-- the reverse lookup cache of each address tree -/
  atRange : Kobj → RangeCache
  /-- objects allocated so far -/
  born : ℕ
  idCounter : ℕ → ℕ
  koGcList : ℕ → List Kobj
  shCiList : ℕ → List ShareAction
  shRmList : ℕ → List ShareAction
  processors : ℕ → Option Kobj
  processorFree : ℕ → Bool
  ncpu : ℕ
  ndev : ℕ
  alloced : ℕ → Bool
  sysmon : ℕ → SysmonDevice
  /-- the devices a CPU polls in `processor_monitor_run` -/
  monitors : ℕ → List Kobj
  /-- history: the objects passed to `kobject_free`, and the counts they had then -/
  freed : List (Kobj × ℕ)

abbrev KM := Comp Errno Machine

/-- A machine with `k` pages before anything has been allocated. -/
def bareMachine (k ncpu ndev : ℕ) : Machine where
  forest := { tree := fun _ => pagetreeInit false 0, hand := [], mem := bootMemory k }
  darray _ := {}
  obj _ := {}
  atRange _ := {}
  born := 0
  idCounter _ := 0
  koGcList _ := []
  shCiList _ := []
  shRmList _ := []
  processors _ := none
  processorFree _ := true
  ncpu := ncpu
  ndev := ndev
  alloced _ := false
  sysmon _ := {}
  monitors _ := []
  freed := []

def Machine.mem (s : Machine) : Memory := s.forest.mem

def Machine.live (s : Machine) (p : Kobj) : Bool := (s.obj p).live

def archCpu : KM ℕ := do
  let s ← state
  pure s.mem.cpu

def getObj (p : Kobj) : KM Kobject := do
  let s ← state
  pure (s.obj p)

def deref (p : Kobj) : KM Kobject := do
  let o ← getObj p
  if o.live then pure o else halt .gone

/-- Following a pointer that has been cast to a type. -/
def derefAs (t : KobjType) (p : Kobj) : KM Kobject := do
  let o ← deref p
  if o.koType = t then pure o else halt .badType

def Machine.modObj (p : Kobj) (f : Kobject → Kobject) (s : Machine) : Machine :=
  { s with obj := update s.obj p (f (s.obj p)) }

@[simp] lemma modObj_self (p : Kobj) (f : Kobject → Kobject) (s : Machine) :
    (Machine.modObj p f s).obj p = f (s.obj p) := update_self _ _ _

lemma modObj_of_ne {p q : Kobj} (h : q ≠ p) (f : Kobject → Kobject) (s : Machine) :
    (Machine.modObj p f s).obj q = s.obj q := update_of_ne h _ _

lemma forall_modObj {P : Kobj → Kobject → Prop} {p : Kobj} {f : Kobject → Kobject} {s : Machine}
    (hp : P p (f (s.obj p))) (h : ∀ q, P q (s.obj q)) (q : Kobj) : P q ((s.modObj p f).obj q) :=
  (forall_update_iff s.obj P).mpr ⟨hp, fun q _ => h q⟩ q

lemma modObj_eq {β : Type} {g : Kobject → β} {p : Kobj} {f : Kobject → Kobject} {s : Machine}
    (h : g (f (s.obj p)) = g (s.obj p)) (q : Kobj) : g ((s.modObj p f).obj q) = g (s.obj q) :=
  forall_modObj (P := fun q o => g o = g (s.obj q)) h (fun _ => rfl) q

/-- What `g` shows of every object is the same, and so is what `k` shows of the machine. -/
structure Same {β γ : Type} (g : Kobject → β) (k : Machine → γ) (s s' : Machine) : Prop where
  obj : ∀ p, g (s'.obj p) = g (s.obj p)
  rest : k s' = k s

namespace Same

variable {β γ : Type} {g : Kobject → β} {k : Machine → γ} {s t s' : Machine} {p : Kobj}
  {f : Kobject → Kobject}

lemma refl (s : Machine) : Same g k s s := ⟨fun _ => rfl, rfl⟩

lemma trans (h : Same g k s t) (h' : Same g k t s') : Same g k s s' :=
  ⟨fun p => (h'.obj p).trans (h.obj p), h'.rest.trans h.rest⟩

lemma of_objects (h : s'.obj = s.obj) (hk : k s' = k s) : Same g k s s' :=
  ⟨fun p => by rw [h], hk⟩

lemma modObj (h : g (f (s.obj p)) = g (s.obj p)) (hk : k (s.modObj p f) = k s) :
    Same g k s (s.modObj p f) := ⟨modObj_eq h, hk⟩

/-- Less is shown. -/
lemma map {β' γ' : Type} (φ : β → β') (ψ : γ → γ') (h : Same g k s s') :
    Same (fun o => φ (g o)) (fun u => ψ (k u)) s s' :=
  ⟨fun p => congrArg φ (h.obj p), congrArg ψ h.rest⟩

end Same

def modSegment (p : Kobj) (f : Segment → Segment) : KM Unit :=
  change (Machine.modObj p fun o => { o with sg := f o.sg })

def modTree (p : Kobj) (f : AddressTree → AddressTree) : KM Unit :=
  change (Machine.modObj p fun o => { o with tree := f o.tree })

def modProcessor (p : Kobj) (f : Processor → Processor) : KM Unit :=
  change (Machine.modObj p fun o => { o with ps := f o.ps })

def modShare (p : Kobj) (f : Share → Share) : KM Unit :=
  change (Machine.modObj p fun o => { o with sh := f o.sh })

def onForest {α : Type} (m : Forest.ForestM TreeId α) : KM α :=
  zoom Machine.forest (fun f s => { s with forest := f }) m

def onArrays {α : Type} (m : DaM TreeId α) : KM α :=
  zoom (fun s => (s.darray, s.forest)) (fun r s => { s with darray := r.1, forest := r.2 }) m

def onShareMap {α : Type} (p : Kobj) (m : MapM TreeId Blob α) : KM α :=
  zoom (fun s => ((s.obj p).sh.shKobjectMap, s.forest))
    (fun r s => Machine.modObj p (fun o => { o with sh := { o.sh with shKobjectMap := r.1 } })
      { s with forest := r.2 }) m

def onSharemap {α : Type} (p : Kobj) (m : MapM TreeId Kobj α) : KM α :=
  zoom (fun s => ((s.obj p).ps.psSharemap.map, s.forest))
    (fun r s => Machine.modObj p
      (fun o => { o with ps := { o.ps with psSharemap := { o.ps.psSharemap with map := r.1 } } })
      { s with forest := r.2 }) m

def mapBack (p : Kobj) (cur : Bool) : TreeId := (p, .mapBack cur)

section

variable {α : Type} {X : Exits Errno Machine} {s : Machine} {p : Kobj} {t : KobjType}
  {Q : Kobject → Machine → Prop}

@[simp] lemma wp_getObj : wp (getObj p) Q X s ↔ Q (s.obj p) s := Iff.rfl

@[simp] lemma wp_archCpu {Q : ℕ → Machine → Prop} : wp archCpu Q X s ↔ Q s.mem.cpu s := Iff.rfl

@[simp] lemma wp_deref : wp (deref p) Q X s ↔ ((s.obj p).live = true → Q (s.obj p) s) ∧
      ((s.obj p).live = false → X.stop .gone s) := by
  simp [deref, wp_ite]

@[simp] lemma wp_derefAs :
    wp (derefAs t p) Q X s ↔ ((s.obj p).live = true → (s.obj p).koType = t → Q (s.obj p) s) ∧
      ((s.obj p).live = true → (s.obj p).koType ≠ t → X.stop .badType s) ∧
      ((s.obj p).live = false → X.stop .gone s) := by
  simp only [derefAs, wp_rules, wp_deref, wp_halt]
  tauto

lemma wp_derefAs_eq {o : Kobject} (ho : s.obj p = o) (hl : o.live = true) (ht : o.koType = t) :
    wp (derefAs t p) Q X s ↔ Q o s := by
  simp [ho, hl, ht]

lemma wp_derefAs_any [S : StopsIn (fun _ _ => True) X.stop] : wp (derefAs t p) Q X s ↔
    ((s.obj p).live = true → (s.obj p).koType = t → Q (s.obj p) s) :=
  wp_derefAs.trans ⟨And.left, fun h => ⟨h, fun _ _ => S.stop _ _ trivial, fun _ =>
    S.stop _ _ trivial⟩⟩

@[simp] lemma wp_modTree {f : AddressTree → AddressTree} {Q : Unit → Machine → Prop} :
    wp (modTree p f) Q X s ↔ Q () (s.modObj p fun o => { o with tree := f o.tree }) := Iff.rfl

@[simp] lemma wp_modProcessor {f : Processor → Processor} {Q : Unit → Machine → Prop} :
    wp (modProcessor p f) Q X s ↔ Q () (s.modObj p fun o => { o with ps := f o.ps }) := Iff.rfl

lemma wp_onForest {m : Forest.ForestM TreeId α} {Q : α → Machine → Prop} :
    wp (onForest m) Q X s ↔
      wp m (fun a f => Q a { s with forest := f }) (X.comap fun f => { s with forest := f })
        s.forest := wp_zoom

lemma wp_onArrays {m : DaM TreeId α} {Q : α → Machine → Prop} :
    wp (onArrays m) Q X s ↔ wp m (fun a r => Q a { s with darray := r.1, forest := r.2 })
        (X.comap fun r => { s with darray := r.1, forest := r.2 }) (s.darray, s.forest) := wp_zoom

end

end Corey.Kern
