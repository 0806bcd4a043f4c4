import Corey.Kern.State

/-!
The life of a kernel object (`kern/id.c`, `kern/kobj.c`).

An object is put on the collection list of the CPU that allocates it, with a count of 0, and
again on the list of the CPU that gives up its last reference.
-/

namespace Corey.Kern

open Function Corey.Comp Corey.Mem

def idAlloc : KM ℕ := do
  let cpu ← archCpu
  let s ← state
  let x := s.idCounter cpu + 1
  change fun s => { s with idCounter := update s.idCounter cpu x }
  require (x < 2 ^ 56)
  pure (x ||| cpu <<< 56)

/-- On the list of a CPU. -/
def Machine.collect (cpu : ℕ) (ko : Kobj) (s : Machine) : Machine :=
  { s with koGcList := update s.koGcList cpu (ko :: s.koGcList cpu) }

def kobjectGcCollect (ko : Kobj) : KM Unit := do
  let cpu ← archCpu
  change (Machine.collect cpu ko)

/-- A new object in the table, which goes to the list of the CPU that runs. -/
def Machine.bear (o : Kobject) (s : Machine) : Machine :=
  { s with obj := update s.obj s.born o, born := s.born + 1 }

def bear (o : Kobject) : KM Kobj := do
  let s ← state
  change fun s => Machine.collect s.mem.cpu s.born (s.bear o)
  pure s.born

def kobjectAlloc (type : KobjType) (pid : ℕ) : KM Kobj := do
  let p ← onForest (Forest.takePage pid)
  let id ← idAlloc
  bear { live := true, koId := id, koType := type, koPid := pid, page := p }

def kobjectIncref (ko : Kobj) : KM Unit := do
  let _ ← deref ko
  change (Machine.modObj ko fun o => { o with koRef := o.koRef + 1 })

lemma incref_koRef {s : Machine} {ko p : Kobj} :
    ((s.modObj ko fun o => { o with koRef := o.koRef + 1 }).obj p).koRef =
      (s.obj p).koRef + if p = ko then 1 else 0 := by
  by_cases hp : p = ko
  · subst hp
    rw [modObj_self, if_pos rfl]
  · rw [modObj_of_ne hp, if_neg hp, Nat.add_zero]

/-- The last reference takes the object to the collection list. -/
def kobjectDecref (ko : Kobj) : KM Unit := do
  let o ← deref ko
  require (o.koRef ≠ 0)
  change (Machine.modObj ko fun o => { o with koRef := o.koRef - 1 })
  if o.koRef = 1 then kobjectGcCollect ko

/-- The page goes back to the allocator. The object is dead from then on. -/
def kobjectFree (ko : Kobj) : KM Unit := do
  let o ← getObj ko
  onForest (Forest.givePage o.page)
  change fun s => { Machine.modObj ko (fun o => { o with live := false }) s with
    freed := (ko, (s.obj ko).koRef) :: s.freed }

end Corey.Kern
