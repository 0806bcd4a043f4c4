import Corey.Kern.Object

/-!
Shares (`kern/share.c`), without the callbacks into the objects they hold.

A share maps ids to objects. What it knows about an object, and each action that is to be done
later, lives in a blob; blobs are cut from pages that the share owns, separately for each CPU.
To look an object up is to check it out: a counter is raised, and an action that lowers it
again waits on a list of the CPU. To remove an object is to take it out of the map and to let
another action give up the reference.
-/

namespace Corey.Kern

open Function Corey.Comp Corey.Mem

def josNcpu : ℕ := 16

def nShareblobPerPage : ℕ := pgsize / 40

/-- `jos_atomic_t` is 32 bits wide. -/
def word32 : ℕ := 2 ^ 32

def shBlob (sh : Kobj) (cpu : ℕ) : TreeId := (sh, .shBlob cpu)

def shareAlloc (kobjMask pid : ℕ) : KM Kobj := do
  let sh ← kobjectAlloc .share pid
  loop (fun i => onForest (Forest.initTree (shBlob sh i) false pid)) 0 josNcpu
  modShare sh fun _ => { shKobjectMap := mapInit pid, shMask := kobjMask }
  pure sh

/-! ### Blobs -/

/-- The blobs of a page, the last one first, as inserting each at the head leaves them. -/
def blobsOfPage (cpu npage : ℕ) : List Blob :=
  (List.range nShareblobPerPage).reverse.map fun i => ⟨cpu, npage * nShareblobPerPage + i⟩

/-- A page of new blobs for the free list. -/
def shareBlobPage (sh : Kobj) (cpu : ℕ) : KM Unit := do
  let o ← derefAs .share sh
  let n := o.sh.npages cpu
  let p ← onForest (putNewPage (shBlob sh cpu) o.koPid n)
  onForest (Forest.onMem (pageZero p))
  modShare sh fun s => { s with
    npages := update s.npages cpu (n + 1)
    free := update s.free cpu (blobsOfPage cpu n ++ s.free cpu) }

def shareBlobAlloc (sh : Kobj) : KM Blob := do
  let cpu ← archCpu
  let o ← derefAs .share sh
  if o.sh.free cpu = [] then shareBlobPage sh cpu
  let o ← derefAs .share sh
  let b ← need .panic (o.sh.free cpu).head?
  modShare sh fun s => { s with free := update s.free cpu (s.free cpu).tail }
  pure b

/-- A blob goes to the list of the CPU that frees it. -/
def shareBlobFree (sh : Kobj) (b : Blob) : KM Unit := do
  let cpu ← archCpu
  let _ ← derefAs .share sh
  modShare sh fun s => { s with free := update s.free cpu (b :: s.free cpu) }

def setInfo (sh : Kobj) (b : Blob) (i : ShareInfo) : KM Unit :=
  modShare sh fun s => { s with info := update s.info b i }

def getInfo (sh : Kobj) (b : Blob) : KM ShareInfo := do
  let o ← derefAs .share sh
  pure (o.sh.info b)

/-! ### Actions -/

/-- An action is written into a blob of its share. -/
def pushAction (a : ShareAction) : KM Unit := do
  let cpu ← archCpu
  let _ ← derefAs .share a.saSh
  match a.saAction with
  | .ci => change fun s =>
      { s with shCiList := update s.shCiList cpu (a :: s.shCiList cpu) }
  | .dec => change fun s =>
      { s with shRmList := update s.shRmList cpu (a :: s.shRmList cpu) }

def shareActionCi (sh : Kobj) (si : Blob) : KM Unit := do
  let i ← getInfo sh si
  require (i.siCo ≠ 0)
  setInfo sh si { i with siCo := i.siCo - 1 }

/-- It waits until nobody has the object checked out. The object's own callback for being
removed is not called. -/
def shareActionDec (sh : Kobj) (si : Blob) : KM Unit := do
  let i ← getInfo sh si
  if i.siCo ≠ 0 then
    halt .spin
  else do
    kobjectDecref i.siKo
    shareBlobFree sh si

def doAction (a : ShareAction) : KM Unit :=
  match a.saAction with
  | .ci => shareActionCi a.saSh a.saSi
  | .dec => shareActionDec a.saSh a.saSi

/-- The first action of one of the two lists is done and taken off the list. -/
def takeAction (a : ShareAction) : KM Unit := do
  doAction a
  let cpu ← archCpu
  match a.saAction with
  | .ci => change fun s =>
      { s with shCiList := update s.shCiList cpu ((s.shCiList cpu).erase a) }
  | .dec => change fun s =>
      { s with shRmList := update s.shRmList cpu ((s.shRmList cpu).erase a) }
  shareBlobFree a.saSh a.sa

/-- The action `share_action_scan` comes to next on a CPU. -/
def Machine.nextAction (s : Machine) (cpu : ℕ) : Option ShareAction :=
  (s.shCiList cpu ++ s.shRmList cpu).head?

/-- One round of the loops of `share_action_scan`. -/
def shareActionScan : KM Unit := do
  let cpu ← archCpu
  let s ← state
  match s.nextAction cpu with
  | none => pure ()
  | some a => takeAction a

/-! ### Objects of a share -/

def shareMask (mask : ℕ) (t : KobjType) : Bool := mask.testBit t.code

def shareImportObj (sh ko : Kobj) : KM Unit := do
  let k ← deref ko
  let o ← derefAs .share sh
  if shareMask o.sh.shMask k.koType = false then
    raise .inval
  else do
    let sb0 ← shareBlobAlloc sh
    setInfo sh sb0 { siKo := ko, siCo := 0, siCnt := 1 }
    match ← attempt (onShareMap sh (mapGet k.koId)) with
    | .ok sb1 => do
      let i ← getInfo sh sb1
      setInfo sh sb1 { i with siCnt := (i.siCnt + 1) % word32 }
      shareBlobFree sh sb0
    | .error _ => do
      onErr (onShareMap sh (mapPut (mapBack sh) k.koId sb0)) (shareBlobFree sh sb0)
      kobjectIncref ko

/-- No type is `kobj_any`. -/
def typeOk (type : Option KobjType) (t : KobjType) : Bool :=
  type = none || type = some t

def shareCoObj (sh : Kobj) (id : ℕ) (type : Option KobjType) : KM Kobj := do
  let _ ← derefAs .share sh
  let sb0 ← onShareMap sh (mapGet id)
  let i ← getInfo sh sb0
  let k ← deref i.siKo
  if typeOk type k.koType = false then
    raise .inval
  else do
    let sb1 ← shareBlobAlloc sh
    setInfo sh sb0 { i with siCo := i.siCo + 1 }
    pushAction ⟨sh, sb0, .ci, sb1⟩
    pure i.siKo

/-- The last import of an object that is undone takes it out of the map. -/
def shareRemoveObj (sh : Kobj) (id : ℕ) : KM Unit := do
  let _ ← derefAs .share sh
  let sb0 ← onShareMap sh (mapGet id)
  let i ← getInfo sh sb0
  let cnt := (i.siCnt + (word32 - 1)) % word32
  setInfo sh sb0 { i with siCnt := cnt }
  if cnt = 0 then do
    let sb1 ← shareBlobAlloc sh
    match ← attempt (onShareMap sh (mapErase id)) with
    | .error _ => halt .panic
    | .ok _ => pushAction ⟨sh, sb0, .dec, sb1⟩

/-- What the iterator over `sh_kobject_map` returns. -/
def shareInfos (sh : Kobj) : KM (List ShareInfo) := do
  let o ← derefAs .share sh
  pure (o.sh.shKobjectMap.table.toList.map fun e => o.sh.info e.2)

end Corey.Kern
