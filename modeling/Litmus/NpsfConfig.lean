import Litmus.NpsfHandoff

/-!
# Setting up NPS-F

The reserves of each CPU and the servers they belong to: `sys_add_server` creates them from an
array in user space, `cleanup_npsf` deletes them, and the reserve-switching timer looks them up.
Servers and reserves are named in the order of their allocation.  `none` is a `BUG`, or an
access through a pointer that points nowhere.
-/

namespace Litmus.Npsf

open Function

abbrev Word := BitVec 32

/-- `struct npsf_budgets` -/
@[ext] structure NpsfBudgets where
  cpu : Word
  budget : LtTime
deriving DecidableEq, Repr

def NO_CPU : Word := 0xffffffff

def EACCES : Int := 13

def ENOMEM : Int := 12

def EFAULT : Int := 14

def EINVAL : Int := 22

/-- `npsf_reserve_t`.  `next_npsf` is not initialised by `do_add_reserve`. -/
structure NpsfReserve where
  server : Option ServerId
  budget : LtTime
  cpu : CpuId
  npsfId : Int
  nextNpsf : Option ReserveId
deriving DecidableEq

/-- The reserves of a `npsf_server_t`. -/
structure ServerReserves where
  currReserve : ReserveId
  firstReserve : ReserveId
  firstCpuWantsIpi : Bool
deriving DecidableEq

/-- `cpu_entry_t`, without its timer -/
structure CpuEntry where
  cpuReserve : Option ReserveId
  npsfReserves : List ReserveId
  lastSeenNpsfId : Int
deriving DecidableEq

structure NpsfConfig (n : Nat) where
  entry : Fin n → CpuEntry
  reserve : ReserveId → NpsfReserve
  server : ServerId → ServerReserves
  allServersAdded : Bool
  timersActivated : Bool
  reservesAllocated : Bool
  /-- what `kmalloc` returns next -/
  nextReserve : ReserveId
  nextServer : ServerId

/-- What `npsf_activate_plugin` sets up. -/
def NpsfConfig.init (n : Nat) : NpsfConfig n where
  entry _ := { cpuReserve := none, npsfReserves := [], lastSeenNpsfId := -1 }
  reserve _ := { server := none, budget := 0, cpu := 0, npsfId := 0, nextNpsf := none }
  server _ := { currReserve := 0, firstReserve := 0, firstCpuWantsIpi := false }
  allServersAdded := false
  timersActivated := false
  reservesAllocated := false
  nextReserve := 0
  nextServer := 0

/-! ### Reserves in a slot -/

def slotBegin (timeOrigin npsfSlotLength now : LtTime) : LtTime :=
  (now - timeOrigin) / npsfSlotLength * npsfSlotLength + timeOrigin

def deltaFromSlotBegin (timeOrigin npsfSlotLength now : LtTime) : LtTime :=
  now - slotBegin timeOrigin npsfSlotLength now

/-- The reserve after `curr` in its list, or the first one after the last. -/
def localNextReserve (curr : ReserveId) (rs : List ReserveId) : Option ReserveId :=
  if rs.getLast? = some curr then rs.head? else rs[rs.idxOf curr + 1]?

namespace NpsfConfig

variable {n : Nat}

/-- The search of `get_reserve_for_offset`, and the end of the reserve it finds. -/
def searchReserve (cfg : NpsfConfig n) (offset : LtTime) :
    LtTime → List ReserveId → Option (ReserveId × LtTime)
  | _, [] => none
  | reservationEnd, tmp :: rs =>
      let reservationEnd := reservationEnd + (cfg.reserve tmp).budget
      if offset < reservationEnd then some (tmp, reservationEnd)
      else cfg.searchReserve offset reservationEnd rs

def getReserveForOffset (cfg : NpsfConfig n) (c : Fin n) (offset : LtTime) :
    Option (ReserveId × LtTime) :=
  cfg.searchReserve offset 0 (cfg.entry c).npsfReserves

/-- `reserve->server->first_reserve` -/
def firstReserveOf (cfg : NpsfConfig n) (r : ReserveId) : Option ReserveId :=
  (cfg.reserve r).server.map fun srv => (cfg.server srv).firstReserve

def getNextReserveSwitchTime (cfg : NpsfConfig n) (c : Fin n)
    (timeOrigin npsfSlotLength now : LtTime) : Option LtTime := do
  let slotStart := slotBegin timeOrigin npsfSlotLength now
  let (reserve, reservationEnd) ← cfg.getReserveForOffset c (now - slotStart)
  let nextTime := reservationEnd + slotStart
  let reserve ← localNextReserve reserve (cfg.entry c).npsfReserves
  let first ← cfg.firstReserveOf reserve
  if first ≠ reserve then pure (nextTime + (cfg.reserve reserve).budget) else pure nextTime

end NpsfConfig

/-! ### The array of budgets -/

structure Abi where
  /-- `sizeof(budgets)`, the size of a pointer -/
  pointer : Nat
  /-- `sizeof(struct npsf_budgets)` -/
  entry : Nat
  /-- `offsetof(struct npsf_budgets, budget)` -/
  budget : Nat
  pointer_lt : pointer < entry
  budget_pos : 0 < budget
  entry_eq : entry = budget + 2

def Abi.x86_64 : Abi := ⟨2, 4, 2, by decide, by decide, rfl⟩

def Abi.i386 : Abi := ⟨1, 3, 1, by decide, by decide, rfl⟩

def Abi.arm : Abi := ⟨1, 4, 2, by decide, by decide, rfl⟩

namespace Abi

/-- Word `o` of an entry; the padding is never read. -/
def wordOf (abi : Abi) (e : NpsfBudgets) (o : Nat) : Word :=
  if o = 0 then e.cpu
  else if o = abi.budget then e.budget.extractLsb' 0 32
  else if o = abi.budget + 1 then e.budget.extractLsb' 32 32
  else 0

def array (abi : Abi) (es : Nat → NpsfBudgets) (w : Nat) : Word :=
  abi.wordOf (es (w / abi.entry)) (w % abi.entry)

/-- Entry `i` of an array in memory. -/
def load (abi : Abi) (memory : Nat → Word) (i : Nat) : NpsfBudgets where
  cpu := memory (abi.entry * i)
  budget := memory (abi.entry * i + abi.budget + 1) ++ memory (abi.entry * i + abi.budget)

/-- `budgets[i]` after `copy_from_user`.  It copies `sizeof(budgets) * n` bytes over the
    default entries; `beyond` is what follows the array of `n` entries in memory. -/
def kernelBudgets (abi : Abi) (n : Nat) (user beyond : Nat → Word) : Nat → NpsfBudgets :=
  abi.load fun w =>
    if w < abi.pointer * n then user w
    else if w < abi.entry * n then abi.array (fun _ => { cpu := NO_CPU, budget := 0 }) w
    else beyond w

end Abi

/-! ### Adding a server -/

/-- What a call of `sys_add_server` meets with. -/
structure CallEnv where
  numOnlineCpus : Nat
  idFault : Bool
  budgetsFault : Bool
  /-- whether each `kmalloc` succeeds; the one for `budgets` is not checked -/
  budgetsAlloc : Bool
  serverAlloc : Bool
  reserveAlloc : Nat → Bool
  /-- `rt_task_count` as read for each reserve -/
  rtTaskCount : Nat → Nat
  /-- the memory behind `budgets` -/
  beyond : Nat → Word
  /-- `npsf_reserve_array` before it is written -/
  stack : Nat → ReserveId

namespace NpsfConfig

variable {n : Nat}

def setEntry (cfg : NpsfConfig n) (c : Fin n) (e : CpuEntry) : NpsfConfig n :=
  { cfg with entry := update cfg.entry c e }

def setServer (cfg : NpsfConfig n) (srv : ServerId) (s : ServerReserves) : NpsfConfig n :=
  { cfg with server := update cfg.server srv s }

/-- `do_add_reserve`: the new reserve, or an error. -/
def doAddReserve (cfg : NpsfConfig n) (rtTaskCount : Nat) (alloc : Bool) (c : Fin n)
    (srv : ServerId) (npsfId : Int) (budget : LtTime) : Except Int (ReserveId × NpsfConfig n) :=
  if npsfId ≤ (cfg.entry c).lastSeenNpsfId then .error (-EINVAL)
  else if rtTaskCount ≠ 0 then .error (-EACCES)
  else if !alloc then .error (-ENOMEM)
  else
    let new := cfg.nextReserve
    let reserves := (cfg.entry c).npsfReserves ++ [new]
    .ok (new,
      { cfg with
        reserve := update cfg.reserve new
          { server := some srv, budget := budget, cpu := c, npsfId := npsfId, nextNpsf := none }
        entry := update cfg.entry c
          { cpuReserve := reserves.head?, npsfReserves := reserves, lastSeenNpsfId := npsfId }
        nextReserve := new + 1 })

/-- The loop that adds the reserves.  `array` is the initialised part of
    `npsf_reserve_array`; the result says whether the loop was left by `goto err`. -/
def addReserves (env : CallEnv) (budgets : Nat → NpsfBudgets) (srv : ServerId) (npsfId : Int) :
    Nat → Int → List ReserveId → NpsfConfig n → Option (Bool × Int × List ReserveId × NpsfConfig n)
  | 0, ret, array, cfg => some (false, ret, array, cfg)
  | fuel + 1, ret, array, cfg =>
      let i := array.length
      if (budgets i).cpu = NO_CPU then some (false, ret, array, cfg)
      else if h : (budgets i).cpu.toNat < n then
        match cfg.doAddReserve (env.rtTaskCount i) (env.reserveAlloc i) ⟨_, h⟩ srv npsfId
            (budgets i).budget with
        | .error e => some (true, e, array, cfg)
        | .ok (new, cfg) => addReserves env budgets srv npsfId fuel 0 (array ++ [new]) cfg
      else none

/-- A read in the loop that links the reserves. -/
inductive Read where
  | budgets (i : Nat)
  | reserveArray (i : Nat)
deriving DecidableEq

/-- The successor of reserve `i`, and what is read to find it. -/
def linkReserve (n : Nat) (budgets : Nat → NpsfBudgets) (array : Nat → ReserveId) (i : Nat) :
    ReserveId × List Read :=
  if i = 0 ∧ (budgets (i + 1)).cpu = NO_CPU then
    -- fixed reserve always has itself as next
    (array i, [.budgets (i + 1), .reserveArray i])
  else if i + 1 < n ∧ 0 < i ∧ (budgets (i + 1)).cpu = NO_CPU then
    -- last reserve in the chain has the first reserve as next
    (array 0, [.budgets (i + 1), .reserveArray 0])
  else
    -- normal continuing reserve
    (array (i + 1),
      (if i = 0 ∨ i + 1 < n then [.budgets (i + 1)] else []) ++ [.reserveArray (i + 1)])

/-- The loop that links the reserves, from `i` on: the values of `next_npsf` that it writes,
    and its reads.  Its test reads `budgets[i]` before it compares `i` with `n`. -/
def linkReserves (n : Nat) (budgets : Nat → NpsfBudgets) (array : Nat → ReserveId) :
    Nat → Nat → List (ReserveId × ReserveId) × List Read
  | 0, i => ([], [.budgets i])
  | fuel + 1, i =>
      if (budgets i).cpu = NO_CPU then ([], [.budgets i])
      else
        let (next, reads) := linkReserve n budgets array i
        let (writes, reads') := linkReserves n budgets array fuel (i + 1)
        ((array i, next) :: writes, .budgets i :: reads ++ .reserveArray i :: reads')

def setNext (cfg : NpsfConfig n) (link : ReserveId × ReserveId) : NpsfConfig n :=
  { cfg with
    reserve := update cfg.reserve link.1
      { cfg.reserve link.1 with nextNpsf := some link.2 } }

def startWithFirst (cfg : NpsfConfig n) (c : Fin n) : Option (NpsfConfig n) := do
  let firstReserve ← (cfg.entry c).npsfReserves.head?
  let srv ← (cfg.reserve firstReserve).server
  let cfg := cfg.setServer srv { cfg.server srv with currReserve := firstReserve }
  pure (cfg.setEntry c { cfg.entry c with cpuReserve := some firstReserve })

/-- What `sys_add_server` does for the last server. -/
def enablePlugin (cfg : NpsfConfig n) : Option (NpsfConfig n) :=
  ((List.finRange n).foldlM startWithFirst cfg).map fun cfg =>
    { cfg with timersActivated := true, allServersAdded := true }

/-- Link the reserves in `array` to each other and to their server. -/
def linkServer (cfg : NpsfConfig n) (budgets : Nat → NpsfBudgets) (srv : ServerId)
    (array : Nat → ReserveId) : NpsfConfig n :=
  let cfg := cfg.setServer srv
    { currReserve := array 0, firstReserve := array 0, firstCpuWantsIpi := false }
  (linkReserves n budgets array n 0).1.foldl setNext cfg

/-- The rest of `sys_add_server` once all reserves are added. -/
def finishServer (cfg : NpsfConfig n) (budgets : Nat → NpsfBudgets) (srv : ServerId)
    (array : Nat → ReserveId) (last : Bool) : Option (NpsfConfig n) :=
  let cfg := cfg.linkServer budgets srv array
  (if last then cfg.enablePlugin else some cfg).map fun cfg =>
    { cfg with reservesAllocated := true }

/-- `sys_add_server`, with the array at `__budgets` as words in user space. -/
def sysAddServer (abi : Abi) (env : CallEnv) (cfg : NpsfConfig n) (id : Int)
    (user : Nat → Word) (last : Bool) : Option (Int × NpsfConfig n) :=
  if env.numOnlineCpus ≠ n || env.idFault then some (-EFAULT, cfg)
  else if !env.budgetsAlloc then none
  else if env.budgetsFault then some (-EFAULT, cfg)
  else if !env.serverAlloc then some (-ENOMEM, cfg)
  else do
    let budgets := abi.kernelBudgets n user env.beyond
    let srv := cfg.nextServer
    let (failed, ret, added, cfg) ←
      addReserves env budgets srv id n (-EFAULT) [] { cfg with nextServer := srv + 1 }
    if failed then pure (ret, cfg)
    else
      let cfg ← cfg.finishServer budgets srv (fun i => added.getD i (env.stack i)) last
      pure (ret, cfg)

end NpsfConfig

/-! ### Deleting all servers -/

/-- The memory during `cleanup_npsf`.  `stale` are the reserves that were followed or written
    after they had been freed. -/
structure Cleanup where
  reserve : ReserveId → NpsfReserve
  freed : List ReserveId
  freedServers : List ServerId
  stale : List ReserveId

namespace Cleanup

/-- Follow a pointer to `r`, or write to it. -/
def access (r : ReserveId) (st : Cleanup) : Cleanup :=
  if r ∈ st.freed then { st with stale := st.stale ++ [r] } else st

/-- `tmp_save->server = NULL` -/
def clearServer (r : ReserveId) (st : Cleanup) : Cleanup :=
  let st := st.access r
  { st with reserve := update st.reserve r { st.reserve r with server := none } }

/-- The walk along `next_npsf` from `tmpSave` until it is back at `tmp`, for at most `fuel`
    steps. -/
def blankServers (tmp : ReserveId) : Nat → ReserveId → Cleanup → Option Cleanup
  | 0, _, _ => none
  | fuel + 1, tmpSave, st =>
      (st.reserve tmpSave).nextNpsf.bind fun next =>
        if next = tmp then some st
        else blankServers tmp fuel next (st.clearServer next)

/-- Free one reserve, and its server if it is the first of the server's reserves. -/
def freeReserve (fuel : Nat) (st : Cleanup) (tmp : ReserveId) : Option Cleanup := do
  let st ← match (st.reserve tmp).server with
    | none => pure st
    | some srv =>
        (blankServers tmp fuel tmp st).map fun st =>
          { st with freedServers := st.freedServers ++ [srv] }
  pure { st with freed := st.freed ++ [tmp] }

/-- `list_del(&entry->npsf_reserves)` writes to the neighbours of the list head. -/
def listDel (rs : List ReserveId) (st : Cleanup) : Cleanup :=
  match rs.head?, rs.getLast? with
  | some next, some prev => (st.access next).access prev
  | _, _ => st

def cleanupEntry (fuel : Nat) (st : Cleanup) (rs : List ReserveId) : Option Cleanup :=
  (rs.foldlM (freeReserve fuel) st).map (listDel rs)

end Cleanup

/-- `cleanup_npsf`, with at most `fuel` steps along each chain. -/
def NpsfConfig.cleanupNpsf {n : Nat} (cfg : NpsfConfig n) (fuel : Nat) : Option Cleanup :=
  ((List.finRange n).map fun c => (cfg.entry c).npsfReserves).foldlM (Cleanup.cleanupEntry fuel)
    { reserve := cfg.reserve, freed := [], freedServers := [], stale := [] }

end Litmus.Npsf
