import Litmus.Runs
import Mathlib.Data.Fintype.Basic
import Mathlib.Logic.Function.Basic

/-!
# Shared objects attached to files

The object descriptors of `fdso.c`.  A task opens an object of an inode, closes its
descriptors one by one or leaves with all of them, at the same time as other tasks.  What a
task does under `i_obj_mutex` to open an object is one step; of the closing, the decrement,
the re-check and the destruction are three.
-/

namespace Litmus.Fdso

open Function


abbrev InodeId := Nat

/-- The address of a `struct inode_obj_id`. -/
abbrev ObjId := Nat

/-- `obj_type_t` -/
inductive ObjType where
  | fmlpSem
  | srpSem
deriving DecidableEq

/-- The types between `MIN_OBJ_TYPE` and `MAX_OBJ_TYPE`. -/
def ObjType.ofInt (type : Int) : Option ObjType :=
  if type = 0 then some .fmlpSem else if type = 1 then some .srpSem else none

/-- `struct fdso_ops`: which operations a class has. -/
structure FdsoOps where
  hasCreate : Bool
  hasOpen : Bool
  hasClose : Bool

/-- `fmlp_sem_ops` and `srp_sem_ops` of a kernel with both protocols -/
def semOps : ObjType → FdsoOps := fun _ =>
  { hasCreate := true, hasOpen := true, hasClose := false }

abbrev maxObjectDescriptors : Nat := 32

abbrev Od := Fin maxObjectDescriptors

/-- The check of a descriptor that user space has supplied. -/
def descriptor (od : Int) : Option Od :=
  if h : od < 0 ∨ od ≥ maxObjectDescriptors then none else some ⟨od.toNat, by omega⟩

def eBadf : Int := 9
def eNoMem : Int := 12
def eInval : Int := 22

/-- `struct inode_obj_id` -/
structure InodeObj where
  count : Int
  inode : InodeId
  type : ObjType
  id : BitVec 32
deriving DecidableEq

/-- `struct od_table_entry` -/
structure OdEntry where
  used : Bool
  obj : Option ObjId
deriving DecidableEq

/-- What follows `put_od_entry`. -/
inductive Then where
  | ret (value : Int)
  | exit (i : Nat)
deriving DecidableEq

inductive Pc where
  | user
  /-- `do_sys_od_open` waits for the mutex -/
  | locking (od : Od) (inode : InodeId) (type : ObjType) (id : BitVec 32)
  /-- it has dropped the mutex -/
  | opening (od : Od) (idx : Int)
  /-- `put_inode_obj` has been called -/
  | putting (od : Od) (next : Then)
  /-- it has brought the count to zero and waits for the mutex -/
  | rechecking (od : Od) (o : ObjId) (inode : InodeId) (next : Then)
  /-- it has the mutex and has found the count at zero -/
  | destroying (od : Od) (o : ObjId) (inode : InodeId) (next : Then)
  /-- `put_inode_obj` has returned -/
  | clearing (od : Od) (next : Then)
  /-- `exit_od_table` looks at entry `i` -/
  | exiting (i : Nat)
  | exited
deriving DecidableEq

structure State (ι : Type) where
  /-- the memory of the objects, also of the destroyed ones -/
  obj : ObjId → InodeObj
  /-- the address of the next allocation -/
  next : ObjId
  /-- `i_obj_list` -/
  objList : InodeId → List ObjId
  /-- `i_obj_mutex` between two steps -/
  mutex : InodeId → Bool
  iCount : InodeId → Int
  odTable : ι → Option (Od → OdEntry)
  pc : ι → Pc
  /-- what the last call has returned -/
  result : ι → Int
  /-- how often an object has been destroyed; and whether a task has accessed an object that
      does not exist, or has followed a null or poisoned pointer -/
  destroyed : ObjId → Nat
  fault : Bool

namespace State

variable {ι : Type} [DecidableEq ι]

/-- An object that has been created and not destroyed. -/
def live (st : State ι) (o : ObjId) : Bool := decide (o < st.next) && st.destroyed o == 0

/-- A table that has not been allocated has no used entries, like one of zeroes. -/
def entry (st : State ι) (t : ι) (od : Od) : OdEntry :=
  match st.odTable t with
  | some table => table od
  | none => { used := false, obj := none }

def setEntry (t : ι) (od : Od) (e : OdEntry) (st : State ι) : State ι :=
  { st with odTable := update st.odTable t (some (update (st.entry t) od e)) }

def setPc (t : ι) (pc : Pc) (st : State ι) : State ι :=
  { st with pc := update st.pc t pc }

def setCount (o : ObjId) (count : Int) (st : State ι) : State ι :=
  { st with obj := update st.obj o { st.obj o with count := count } }

section

variable {t : ι} {od : Od} {st : State ι}

theorem setPc_pc_self {pc : Pc} : (st.setPc t pc).pc t = pc := update_self _ _ _

theorem setPc_pc_of_ne {pc : Pc} {u : ι} (hu : u ≠ t) : (st.setPc t pc).pc u = st.pc u :=
  update_of_ne hu _ _

theorem setEntry_entry_self {e : OdEntry} : (st.setEntry t od e).entry t od = e := by
  simp [setEntry, entry]

theorem setEntry_entry_of_ne {e : OdEntry} {u : ι} {d : Od} (hne : (u, d) ≠ (t, od)) :
    (st.setEntry t od e).entry u d = st.entry u d := by
  unfold setEntry
  by_cases hu : u = t
  · subst hu
    have hd : d ≠ od := fun hd => hne (by rw [hd])
    rw [entry]
    simp [hd]
  simp [entry, hu]

omit [DecidableEq ι] in
theorem setCount_count {o : ObjId} {c : Int} (p : ObjId) :
    ((st.setCount o c).obj p).count = update (fun p => (st.obj p).count) o c p := by
  unfold setCount
  by_cases hp : p = o
  · subst hp
    simp
  simp [hp]

omit [DecidableEq ι] in
theorem setCount_inode {o : ObjId} {c : Int} (p : ObjId) :
    ((st.setCount o c).obj p).inode = (st.obj p).inode := by
  unfold setCount
  by_cases hp : p = o
  · subst hp
    simp
  simp [hp]

end

def ret (t : ι) (value : Int) (st : State ι) : State ι :=
  { st with result := update st.result t value }.setPc t .user

def access (o : ObjId) (st : State ι) : State ι :=
  { st with fault := st.fault || !st.live o }

def accessAll (os : List ObjId) (st : State ι) : State ι :=
  os.foldl (fun st o => st.access o) st

/-- A bad pointer: the kernel makes the task exit. -/
def oops (t : ι) (st : State ι) : State ι := { st with fault := true }.setPc t (.exiting 0)

/-! ### Opening -/

/-- `get_od_entry`; `mem` tells whether a table can be allocated. -/
def getOdEntry (t : ι) (mem : Bool) (st : State ι) : Option Od :=
  if (st.odTable t).isNone && !mem then none
  else (List.finRange maxObjectDescriptors).find? fun i => !(st.entry t i).used

/-- `sys_od_open` up to the mutex; `file` is the inode of the file, if there is one. -/
def odOpen (t : ι) (file : Option InodeId) (type : Int) (id : BitVec 32) (mem : Bool)
    (st : State ι) : State ι :=
  match ObjType.ofInt type with
  | none => st.ret t (-eInval)
  | some type =>
      match file with
      | none => st.ret t (-eBadf)
      | some inode =>
          match st.getOdEntry t mem with
          | none => st.ret t (-eNoMem)
          | some od =>
              (st.setEntry t od { st.entry t od with used := true }).setPc t
                (.locking od inode type id)

/-- The comparison in the loop of `get_inode_obj`. -/
def isObj (st : State ι) (type : ObjType) (id : BitVec 32) (o : ObjId) : Bool :=
  (st.obj o).id == id && (st.obj o).type == type

/-- The object that `get_inode_obj` returns. -/
def getInodeObj (inode : InodeId) (type : ObjType) (id : BitVec 32) (st : State ι) :
    Option ObjId :=
  (st.objList inode).find? (st.isObj type id)

/-- The objects that `get_inode_obj` looks at. -/
def visited (inode : InodeId) (type : ObjType) (id : BitVec 32) (st : State ι) : List ObjId :=
  (st.objList inode).takeWhile (fun o => !st.isObj type id o) ++
    (st.getInodeObj inode type id).toList

/-- `fdso_create`; `raw` is the answer of the class. -/
def fdsoCreate (ops : ObjType → FdsoOps) (type : ObjType) (raw : Bool) : Bool :=
  if (ops type).hasCreate then raw else false

def fdsoOpen (ops : ObjType → FdsoOps) (type : ObjType) (answer : Int) : Int :=
  if (ops type).hasOpen then answer else 0

def fdsoClose (ops : ObjType → FdsoOps) (type : ObjType) (answer : Int) : Int :=
  if (ops type).hasClose then answer else 0

/-- `alloc_inode_obj`, if neither of its allocations fails; `list_add` writes to the first
    object of the list. -/
def allocInodeObj (inode : InodeId) (type : ObjType) (id : BitVec 32) (st : State ι) : State ι :=
  { st.accessAll (st.objList inode).head?.toList with
    obj := update st.obj st.next { count := 1, inode := inode, type := type, id := id }
    next := st.next + 1
    objList := update st.objList inode (st.next :: st.objList inode)
    iCount := update st.iCount inode (st.iCount inode + 1) }

/-- `do_sys_od_open` under the mutex.  `idx` is the number of the entry. -/
def lookup (ops : ObjType → FdsoOps) (t : ι) (od : Od) (inode : InodeId) (type : ObjType)
    (id : BitVec 32) (raw mem : Bool) (st : State ι) : State ι :=
  let st := st.accessAll (st.visited inode type id)
  match st.getInodeObj inode type id with
  | some o =>
      ((st.setCount o ((st.obj o).count + 1)).setEntry t od { used := true, obj := some o }).setPc t
        (.opening od od.val)
  | none =>
      if fdsoCreate ops type raw && mem then
        ((st.allocInodeObj inode type id).setEntry t od
          { used := true, obj := some st.next }).setPc t (.opening od od.val)
      else
        (st.setEntry t od { st.entry t od with used := false }).setPc t (.opening od (-eNoMem))

/-- The `fdso_open` of `do_sys_od_open` and what follows.  It is also called if there is no
    object. -/
def callOpen (ops : ObjType → FdsoOps) (t : ι) (od : Od) (idx answer : Int) (st : State ι) :
    State ι :=
  match (st.entry t od).obj with
  | none => st.oops t
  | some o =>
      let st := st.access o
      let err := fdsoOpen ops (st.obj o).type answer
      if err < 0 then st.setPc t (.putting od (.ret err)) else st.ret t idx

/-! ### Closing -/

/-- `sys_od_close` up to its `put_od_entry` -/
def odClose (ops : ObjType → FdsoOps) (t : ι) (od : Int) (answer : Int) (st : State ι) :
    State ι :=
  match descriptor od with
  | none => st.ret t (-eInval)
  | some od =>
      if (st.entry t od).used then
        match (st.entry t od).obj with
        | none => st.oops t
        | some o =>
            let st := st.access o
            let ret := fdsoClose ops (st.obj o).type answer
            if ret = 0 then st.setPc t (.putting od (.ret 0)) else st.ret t ret
      else st.ret t (-eInval)

/-- `put_inode_obj` up to its `atomic_dec_and_test` -/
def decAndTest (t : ι) (od : Od) (next : Then) (st : State ι) : State ι :=
  match (st.entry t od).obj with
  | none => st.oops t
  | some o =>
      let st := st.access o
      let inode := (st.obj o).inode
      let st := st.setCount o ((st.obj o).count - 1)
      st.setPc t (if (st.obj o).count = 0 then .rechecking od o inode next else .clearing od next)

/-- The `atomic_read` under the mutex -/
def recheck (t : ι) (od : Od) (o : ObjId) (inode : InodeId) (next : Then) (st : State ι) :
    State ι :=
  let st := st.access o
  if (st.obj o).count = 0 then
    { st with mutex := update st.mutex inode true }.setPc t (.destroying od o inode next)
  else st.setPc t (.clearing od next)

/-- The objects to which `list_del` writes, apart from `o` itself. -/
def neighbours (o : ObjId) : List ObjId → List ObjId
  | p :: q :: rest =>
      if p = o then [q]
      else if q = o then p :: rest.head?.toList
      else neighbours o (q :: rest)
  | _ => []

/-- The destruction of an object, up to `iput`.  The links of an object that is not on its
    list are poisoned. -/
def destroy (t : ι) (od : Od) (o : ObjId) (inode : InodeId) (next : Then) (st : State ι) :
    State ι :=
  if o ∈ st.objList inode then
    let st := (st.access o).accessAll (neighbours o (st.objList inode))
    { st with
      objList := update st.objList inode ((st.objList inode).erase o)
      destroyed := update st.destroyed o (st.destroyed o + 1)
      mutex := update st.mutex inode false
      iCount := update st.iCount inode (st.iCount inode - 1) }.setPc t (.clearing od next)
  else (st.access o).oops t

/-- The end of `put_od_entry` -/
def clear (t : ι) (od : Od) (next : Then) (st : State ι) : State ι :=
  let st := st.setEntry t od { st.entry t od with used := false }
  match next with
  | .ret value => st.ret t value
  | .exit i => st.setPc t (.exiting i)

/-- One round of the loop of `exit_od_table`, or its end. -/
def exitNext (t : ι) (i : Nat) (st : State ι) : State ι :=
  if h : i < maxObjectDescriptors then
    if (st.entry t ⟨i, h⟩).used then st.setPc t (.putting ⟨i, h⟩ (.exit (i + 1)))
    else st.setPc t (.exiting (i + 1))
  else { st with odTable := update st.odTable t none }.setPc t .exited

def odLookup (t : ι) (od : Int) (st : State ι) : Option OdEntry :=
  match descriptor od with
  | none => none
  | some od => if (st.entry t od).used then some (st.entry t od) else none

end State

/-! ### The tasks as a transition system -/

inductive Op (ι : Type) where
  | odOpen (t : ι) (file : Option InodeId) (type : Int) (id : BitVec 32) (mem : Bool)
  /-- the section under the mutex; `raw` and `mem` tell which allocations succeed -/
  | lookup (t : ι) (raw mem : Bool)
  | callOpen (t : ι) (answer : Int)
  | odClose (t : ι) (od : Int) (answer : Int)
  /-- a semaphore call looks at the object of a descriptor -/
  | odLookup (t : ι) (od : Int)
  | exitOdTable (t : ι)
  | exitNext (t : ι)
  | decAndTest (t : ι)
  | recheck (t : ι)
  | destroy (t : ι)
  | clear (t : ι)

namespace State

variable {ι : Type} [DecidableEq ι]

/-- Run one step; `none` is a step that is not due or has to wait for the mutex. -/
def exec (ops : ObjType → FdsoOps) (st : State ι) : Op ι → Option (State ι)
  | .odOpen t file type id mem =>
      match st.pc t with
      | .user => some (st.odOpen t file type id mem)
      | _ => none
  | .lookup t raw mem =>
      match st.pc t with
      | .locking od inode type id =>
          if st.mutex inode then none else some (st.lookup ops t od inode type id raw mem)
      | _ => none
  | .callOpen t answer =>
      match st.pc t with
      | .opening od idx => some (st.callOpen ops t od idx answer)
      | _ => none
  | .odClose t od answer =>
      match st.pc t with
      | .user => some (st.odClose ops t od answer)
      | _ => none
  | .odLookup t od =>
      match st.pc t with
      | .user =>
          match st.odLookup t od with
          | none => some st
          | some e =>
              match e.obj with
              | none => some (st.oops t)
              | some o => some (st.access o)
      | _ => none
  | .exitOdTable t =>
      match st.pc t with
      | .user => some (st.setPc t (if (st.odTable t).isSome then .exiting 0 else .exited))
      | _ => none
  | .exitNext t =>
      match st.pc t with
      | .exiting i => some (st.exitNext t i)
      | _ => none
  | .decAndTest t =>
      match st.pc t with
      | .putting od next => some (st.decAndTest t od next)
      | _ => none
  | .recheck t =>
      match st.pc t with
      | .rechecking od o inode next =>
          if st.mutex inode then none else some (st.recheck t od o inode next)
      | _ => none
  | .destroy t =>
      match st.pc t with
      | .destroying od o inode next => some (st.destroy t od o inode next)
      | _ => none
  | .clear t =>
      match st.pc t with
      | .clearing od next => some (st.clear t od next)
      | _ => none

/-- Before the first open; the inodes have other references. -/
def init (iCount : InodeId → Int) : State ι where
  obj _ := { count := 0, inode := 0, type := .fmlpSem, id := 0 }
  next := 0
  objList _ := []
  mutex _ := false
  iCount := iCount
  odTable _ := none
  pc _ := .user
  result _ := 0
  destroyed _ := 0
  fault := false

end State

def Step {ι : Type} [DecidableEq ι] (ops : ObjType → FdsoOps) (st : State ι) (op : Op ι)
    (st' : State ι) : Prop :=
  st.exec ops op = some st'

end Litmus.Fdso
