import Litmus.FdsoReferences

/-!
# Failed opens

`do_sys_od_open` claims a descriptor, takes a reference and then asks the class.  A class that
rejects the open makes it undo both.  If there is no object it goes on with what the descriptor
was used for before.
-/

namespace Litmus.Fdso

open Function Runs State

variable {ι : Type} [DecidableEq ι] [Fintype ι]

section

variable {ops : ObjType → FdsoOps} {others : InodeId → Int} {t : ι} {od : Od} {st st' : State ι}

/-- A section of task `t` that leaves the tables and the other tasks alone. -/
structure Aside (t : ι) (st st' : State ι) : Prop where
  odTable : st'.odTable = st.odTable
  pc : ∀ {u}, u ≠ t → st'.pc u = st.pc u

omit [DecidableEq ι] [Fintype ι] in
theorem Aside.trans {st'' : State ι} (h : Aside t st st') (h' : Aside t st' st'') :
    Aside t st st'' :=
  ⟨h'.odTable.trans h.odTable, fun hu => (h'.pc hu).trans (h.pc hu)⟩

end

section

variable {ops : ObjType → FdsoOps} {others : InodeId → Int} {t : ι} {od : Od} {i : InodeId}
  {type : ObjType} {id : BitVec 32} {raw mem : Bool} {answer : Int} {st st' : State ι}

end

end Litmus.Fdso
