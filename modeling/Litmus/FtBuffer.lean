import Litmus.Runs
import Mathlib.Data.Fintype.Basic
import Mathlib.Logic.Function.Basic

/-!
# The Feather-Trace buffer

The ring buffer of `feather_buffer.h`, with any number of writers and one reader.  Each
access to a shared variable is one step; so are the storing and the copying of one byte.
-/

namespace Litmus.FtBuffer

open Function

abbrev Byte := BitVec 8

/-- The values of `slots[i]`. -/
inductive SlotState where
  | free
  | busy
  | ready
deriving DecidableEq

/-- The check of `init_ft_buffer`: the slot count must divide `UINT_MAX + 1`. -/
def initAccepts (slotCount : BitVec 32) : Bool :=
  !(slotCount == 0 || BitVec.allOnes 32 % slotCount != slotCount - 1)

/-- The parameters that `init_ft_buffer` has accepted. -/
structure Config where
  slotCount : BitVec 32
  slotSize : BitVec 32
  accepted : initAccepts slotCount = true

/-- How far a writer has come, with its local variables.  `k` counts the claims. -/
inductive Writer where
  | idle
  /-- `free` was positive -/
  | granted
  | claimed (idx : BitVec 32) (k : Nat)
  /-- `ft_buffer_start_write` has returned 1; `ptr` is relative to `buffer_mem`, and `data` is
      the record as the writer sees it -/
  | writing (ptr : BitVec 32) (k : Nat) (data : List Byte)
  /-- `free` was not positive -/
  | refused
  | failing
deriving DecidableEq

inductive Reader where
  | idle
  | testing
  | copying (idx : BitVec 32) (dest : List Byte)
  | advancing (dest : List Byte)
  | returning (dest : List Byte)
deriving DecidableEq

/-- `struct ft_buffer` and its users -/
structure State (N : Nat) where
  freeCount : BitVec 32
  writeIdx : BitVec 32
  readIdx : BitVec 32
  slots : Nat → SlotState
  bufferMem : Nat → Byte
  failedWrites : BitVec 32
  writer : Fin N → Writer
  reader : Reader
  /-- the number of claims, the finished records by the number of their claims, the records
      that reads have returned, and the number of refused writes; the code does not keep
      them -/
  claims : Nat
  record : Nat → Option (List Byte)
  delivered : List (List Byte)
  refusals : Nat

namespace State

variable {N : Nat}

/-- `init_ft_buffer` with whatever the memory holds -/
def init (cfg : Config) (mem : Nat → Byte) : State N where
  freeCount := cfg.slotCount
  writeIdx := 0
  readIdx := 0
  slots _ := .free
  bufferMem := mem
  failedWrites := 0
  writer _ := .idle
  reader := .idle
  claims := 0
  record _ := none
  delivered := []
  refusals := 0

def setWriter (w : Fin N) (pc : Writer) (st : State N) : State N :=
  { st with writer := update st.writer w pc }

def setSlot (idx : BitVec 32) (s : SlotState) (st : State N) : State N :=
  { st with slots := update st.slots idx.toNat s }

/-- The `size` bytes from `start` on. -/
def region (st : State N) (size start : Nat) : List Byte :=
  (List.range size).map fun off => st.bufferMem (start + off)

end State

/-! ### The buffer as a transition system -/

inductive Op (N : Nat) where
  /-- `fetch_and_dec(&buf->free_count)` -/
  | startWrite (w : Fin N)
  /-- `fetch_and_inc(&buf->write_idx)` -/
  | claim (w : Fin N)
  /-- `buf->slots[idx] = SLOT_BUSY` -/
  | markBusy (w : Fin N)
  /-- `fetch_and_inc(&buf->free_count)` of a refused writer -/
  | undo (w : Fin N)
  /-- `fetch_and_inc(&buf->failed_writes)` -/
  | fail (w : Fin N)
  | store (w : Fin N) (off : Nat) (b : Byte)
  /-- `ft_buffer_finish_write` -/
  | finishWrite (w : Fin N)
  /-- `buf->free_count == buf->slot_count` -/
  | startRead
  /-- `buf->slots[idx] == SLOT_READY` -/
  | testSlot
  /-- one byte of the `memcpy` -/
  | copyByte
  /-- `buf->slots[idx] = SLOT_FREE` -/
  | freeSlot
  /-- `buf->read_idx++` -/
  | advance
  /-- `fetch_and_inc(&buf->free_count)` of the reader -/
  | finishRead

namespace State

variable {N : Nat}

/-- Run one step; `none` is a step that is not due, and a division by zero. -/
def exec (cfg : Config) (st : State N) : Op N → Option (State N)
  | .startWrite w =>
      match st.writer w with
      | .idle =>
          let free := st.freeCount
          let st := { st with freeCount := st.freeCount - 1 }
          if free.sle 0 then
            some ({ st with refusals := st.refusals + 1 }.setWriter w .refused)
          else some (st.setWriter w .granted)
      | _ => none
  | .claim w =>
      match st.writer w with
      | .granted =>
          let idx := st.writeIdx % cfg.slotCount
          some ({ st with writeIdx := st.writeIdx + 1, claims := st.claims + 1 }.setWriter w
            (.claimed idx st.claims))
      | _ => none
  | .markBusy w =>
      match st.writer w with
      | .claimed idx k =>
          let ptr := idx * cfg.slotSize
          some ((st.setSlot idx .busy).setWriter w
            (.writing ptr k (st.region cfg.slotSize.toNat ptr.toNat)))
      | _ => none
  | .undo w =>
      match st.writer w with
      | .refused => some ({ st with freeCount := st.freeCount + 1 }.setWriter w .failing)
      | _ => none
  | .fail w =>
      match st.writer w with
      | .failing => some ({ st with failedWrites := st.failedWrites + 1 }.setWriter w .idle)
      | _ => none
  | .store w off b =>
      match st.writer w with
      | .writing ptr k data =>
          if off < cfg.slotSize.toNat then
            some ({ st with
              bufferMem := update st.bufferMem (ptr.toNat + off) b }.setWriter w
                (.writing ptr k (data.set off b)))
          else none
      | _ => none
  | .finishWrite w =>
      match st.writer w with
      | .writing ptr k data =>
          if cfg.slotSize = 0 then none
          else some ({ st.setSlot (ptr / cfg.slotSize) .ready with
            record := update st.record k (some data) }.setWriter w .idle)
      | _ => none
  | .startRead =>
      match st.reader with
      | .idle => some (if st.freeCount = cfg.slotCount then st else { st with reader := .testing })
      | _ => none
  | .testSlot =>
      match st.reader with
      | .testing =>
          let idx := st.readIdx % cfg.slotCount
          some { st with
            reader := if st.slots idx.toNat = .ready then .copying idx [] else .idle }
      | _ => none
  | .copyByte =>
      match st.reader with
      | .copying idx dest =>
          if dest.length < cfg.slotSize.toNat then
            some { st with
              reader := .copying idx
                (dest ++ [st.bufferMem ((idx * cfg.slotSize).toNat + dest.length)]) }
          else none
      | _ => none
  | .freeSlot =>
      match st.reader with
      | .copying idx dest =>
          if dest.length < cfg.slotSize.toNat then none
          else some { st.setSlot idx .free with reader := .advancing dest }
      | _ => none
  | .advance =>
      match st.reader with
      | .advancing dest =>
          some { st with readIdx := st.readIdx + 1, reader := .returning dest }
      | _ => none
  | .finishRead =>
      match st.reader with
      | .returning dest =>
          some { st with
            freeCount := st.freeCount + 1
            delivered := st.delivered ++ [dest]
            reader := .idle }
      | _ => none

end State

def Step {N : Nat} (cfg : Config) (st : State N) (op : Op N) (st' : State N) : Prop :=
  st.exec cfg op = some st'

end Litmus.FtBuffer
