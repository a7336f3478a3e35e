import Litmus.FtBuffer

/-!
# Reading the Feather-Trace devices

`ftdev_read` copies records to user space until it has served the request or finds no more.  The
helper hands it the number of bytes that `copy_to_user` has left, which it takes for a count of
records or for an error by its value.
-/

namespace Litmus.FtBuffer

open Function

variable {N : Nat}

namespace State

end State

def Op.isWriter : Op N → Bool
  | .startWrite _ | .claim _ | .markBusy _ | .undo _ | .fail _ | .store _ _ _ | .finishWrite _ =>
      true
  | _ => false

/-- The writers run while the reader waits. -/
def State.written (cfg : Config) (writes : List (Op N)) (st : State N) : State N :=
  (writes.filter Op.isWriter).foldl (fun st op => (st.exec cfg op).getD st) st

/-- What a round of the loop meets: the answer of `copy_to_user`, and, if the reader waits, the
    writers and whether a signal is pending afterwards. -/
structure Round (N : Nat) where
  residual : BitVec 32
  writes : List (Op N)
  signal : Bool

section

variable {cfg : Config} {events : Bool} {st st' : State N} {residual : BitVec 32} {len : Nat}
  {r : Round N} {rounds : List (Round N)} {res err : Int}

end

end Litmus.FtBuffer
