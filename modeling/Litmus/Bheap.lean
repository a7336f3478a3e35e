import Mathlib.Logic.Function.Basic
import Mathlib.Data.BitVec

/-!
# `litmus/bheap.c`: the binomial heap in linked memory

The model keeps the memory of the C code: a store of `struct bheap_node`s
addressed by 64-bit pointers, and the handle slots (`struct bheap_node **`) that
`ref` fields point at.  `NULL` is `none`.  Every function threads the store the
way the C function writes it, field by field.

Loops carry a step counter that starts above the number of addresses.  They
return `none` when the counter runs out (the C loop would not have ended on any
list without a cycle) or when the code would dereference `NULL`.

`degree` is an `unsigned int` in C.  It is a `Nat` here: a tree of degree `k` has
`2 ^ k` nodes, so in a heap no degree comes near the wrap-around or `NOT_IN_HEAP`.
-/

namespace Litmus.LinkedHeap

open Function

/-- `struct bheap_node *`, without `NULL`. -/
abbrev NodePtr := BitVec 64

/-- `struct bheap_node **`: the address of a slot that holds a node pointer. -/
abbrev HandlePtr := BitVec 64

/-- `NOT_IN_HEAP`, that is, `UINT_MAX`. -/
def notInHeap : Nat := 2 ^ 32 - 1

/-- One step per address, and one more for the last test of a loop. -/
def stepBound : Nat := 2 ^ 64 + 1

structure BheapNode (V : Type) where
  parent : Option NodePtr
  next : Option NodePtr
  child : Option NodePtr
  degree : Nat
  value : V
  ref : HandlePtr

structure Bheap where
  head : Option NodePtr
  min : Option NodePtr
deriving DecidableEq, Repr

/-- The nodes in memory and the contents of the handle slots. -/
structure Store (V : Type) where
  node : NodePtr → BheapNode V
  handle : HandlePtr → NodePtr

variable {V : Type}

namespace Store

def modify (s : Store V) (p : NodePtr) (g : BheapNode V → BheapNode V) : Store V :=
  { s with node := update s.node p (g (s.node p)) }

def setHandle (s : Store V) (h : HandlePtr) (p : NodePtr) : Store V :=
  { s with handle := update s.handle h p }

@[simp] theorem node_modify_self (s : Store V) (p : NodePtr)
    (g : BheapNode V → BheapNode V) : (s.modify p g).node p = g (s.node p) := by
  simp [modify]

@[simp] theorem node_modify_of_ne (s : Store V) {p q : NodePtr} (h : q ≠ p)
    (g : BheapNode V → BheapNode V) : (s.modify p g).node q = s.node q := by
  simp [modify, h]

@[simp] theorem handle_modify (s : Store V) (p : NodePtr)
    (g : BheapNode V → BheapNode V) : (s.modify p g).handle = s.handle := rfl

@[simp] theorem node_setHandle (s : Store V) (h : HandlePtr) (p : NodePtr) :
    (s.setHandle h p).node = s.node := rfl

end Store

/-! ### Pointer locations

The C code writes "through the link that leads here" in three places: `*pos` in
`__bheap_merge`, and the `if (prev) prev->next = ...; else head = ...` idiom.  A
location is therefore either the local list head or the `next` field of a node. -/

def readLink (head : Option NodePtr) (loc : Option NodePtr) (s : Store V) : Option NodePtr :=
  match loc with
  | none => head
  | some p => (s.node p).next

def writeLink (head : Option NodePtr) (loc : Option NodePtr) (v : Option NodePtr)
    (s : Store V) : Option NodePtr × Store V :=
  match loc with
  | none => (v, s)
  | some p => (head, s.modify p fun n => { n with next := v })

/-! ### Initialisation and linking -/

def bheapInit : Bheap := { head := none, min := none }

/-- `bheap_node_init`: the node is the one the slot points at. -/
def bheapNodeInit (h : HandlePtr) (value : V) (s : Store V) : Store V :=
  s.modify (s.handle h) fun _ =>
    { parent := none, next := none, child := none,
      degree := notInHeap, value := value, ref := h }

/-- `__bheap_link`: make `child` a subtree of `root`. -/
def rawBheapLink (root child : NodePtr) (s : Store V) : Store V :=
  let s := s.modify child fun n => { n with parent := some root }
  let s := s.modify child fun n => { n with next := (s.node root).child }
  let s := s.modify root fun n => { n with child := some child }
  s.modify root fun n => { n with degree := n.degree + 1 }

/-! ### `__bheap_merge`, `__bheap_reverse`, `__bheap_min` -/

/-- `while (a && b)`, then append what is left. -/
def mergeLoop : Nat → Option NodePtr → Option NodePtr → Option NodePtr → Option NodePtr →
    Store V → Option (Option NodePtr × Store V)
  | 0, _, _, _, _, _ => none
  | fuel + 1, some a, some b, head, pos, s =>
      if (s.node a).degree < (s.node b).degree then
        let (head, s) := writeLink head pos (some a) s
        mergeLoop fuel (s.node a).next (some b) head (some a) s
      else
        let (head, s) := writeLink head pos (some b) s
        mergeLoop fuel (some a) (s.node b).next head (some b) s
  | _ + 1, some a, none, head, pos, s => some (writeLink head pos (some a) s)
  | _ + 1, none, b, head, pos, s => some (writeLink head pos b s)

def rawBheapMerge (a b : Option NodePtr) (s : Store V) :
    Option (Option NodePtr × Store V) :=
  mergeLoop stepBound a b none none s

/-- `while (h->next)`; the last node is linked after the loop. -/
def reverseLoop : Nat → NodePtr → Option NodePtr → Store V →
    Option (Option NodePtr × Store V)
  | 0, _, _, _ => none
  | fuel + 1, h, tail, s =>
      match (s.node h).next with
      | none => some (some h, s.modify h fun n => { n with next := tail })
      | some next =>
          let s := s.modify h fun n => { n with next := tail }
          let s := s.modify next fun n => { n with parent := none }
          reverseLoop fuel next (some h) s

/-- Reverse a list of nodes and clear their parent pointers. -/
def rawBheapReverse (h : Option NodePtr) (s : Store V) :
    Option (Option NodePtr × Store V) :=
  match h with
  | none => some (none, s)
  | some h =>
      let s := s.modify h fun n => { n with parent := none }
      reverseLoop stepBound h none s

/-- `while (cur)`: the pair holds `*prev` and `*node`. -/
def minLoop (higherPrio : V → V → Bool) (s : Store V) : Nat → Option NodePtr → NodePtr →
    NodePtr → Option NodePtr → Option (Option NodePtr × NodePtr)
  | 0, _, _, _, _ => none
  | _ + 1, prev, node, _, none => some (prev, node)
  | fuel + 1, prev, node, prev', some cur =>
      if higherPrio (s.node cur).value (s.node node).value then
        minLoop higherPrio s fuel (some prev') cur cur (s.node cur).next
      else
        minLoop higherPrio s fuel prev node cur (s.node cur).next

/-- `__bheap_min`: the best root and the root before it. -/
def rawBheapMin (higherPrio : V → V → Bool) (heap : Bheap) (s : Store V) :
    Option (Option NodePtr × Option NodePtr) :=
  match heap.head with
  | none => some (none, none)
  | some h =>
      (minLoop higherPrio s stepBound none h h (s.node h).next).map
        fun (prev, node) => (prev, some node)

/-! ### `__bheap_union` and `__bheap_extract_min` -/

/-- `while (next)`: either advance, or link `next` under `x`, or `x` under `next`. -/
def unionLoop (higherPrio : V → V → Bool) : Nat → Option NodePtr → Option NodePtr →
    NodePtr → Option NodePtr → Store V → Option (Option NodePtr × Store V)
  | 0, _, _, _, _, _ => none
  | _ + 1, h1, _, _, none, s => some (h1, s)
  | fuel + 1, h1, prev, x, some next, s =>
      if (s.node x).degree ≠ (s.node next).degree ∨
          (s.node next).next.any (fun nn => (s.node nn).degree == (s.node x).degree) then
        unionLoop higherPrio fuel h1 (some x) next (s.node next).next s
      else if higherPrio (s.node x).value (s.node next).value then
        let s := s.modify x fun n => { n with next := (s.node next).next }
        let s := rawBheapLink x next s
        unionLoop higherPrio fuel h1 prev x (s.node x).next s
      else
        let (h1, s) := writeLink h1 prev (some next) s
        let s := rawBheapLink next x s
        unionLoop higherPrio fuel h1 prev next (s.node next).next s

def rawBheapUnion (higherPrio : V → V → Bool) (heap : Bheap) (h2 : Option NodePtr)
    (s : Store V) : Option (Bheap × Store V) :=
  match h2, heap.head with
  | none, _ => some (heap, s)
  | some h2, none => some ({ heap with head := some h2 }, s)
  | some h2, some h1 =>
      match rawBheapMerge (some h1) (some h2) s with
      | some (some h1, s) =>
          (unionLoop higherPrio stepBound (some h1) none h1 (s.node h1).next s).map
            fun (h1, s) => ({ heap with head := h1 }, s)
      | _ => none

/-- Unlink root `node`, found behind `prev`, and union its children back in. -/
def unlinkRoot (higherPrio : V → V → Bool) (heap : Bheap) (prev : Option NodePtr)
    (node : NodePtr) (s : Store V) : Option (Bheap × Store V) :=
  let (head, s) := writeLink heap.head prev (s.node node).next s
  match rawBheapReverse (s.node node).child s with
  | none => none
  | some (children, s) => rawBheapUnion higherPrio { heap with head := head } children s

def rawBheapExtractMin (higherPrio : V → V → Bool) (heap : Bheap) (s : Store V) :
    Option (Option NodePtr × Bheap × Store V) :=
  match rawBheapMin higherPrio heap s with
  | none => none
  | some (_, none) => some (none, heap, s)
  | some (prev, some node) =>
      (unlinkRoot higherPrio heap prev node s).map fun (heap, s) => (some node, heap, s)

/-! ### The operations of `bheap.h` -/

/-- The four assignments that make a node a tree of its own. -/
def resetNode (node : NodePtr) (s : Store V) : Store V :=
  s.modify node fun n => { n with child := none, parent := none, next := none, degree := 0 }

def bheapInsert (higherPrio : V → V → Bool) (heap : Bheap) (node : NodePtr) (s : Store V) :
    Option (Bheap × Store V) :=
  let s := resetNode node s
  match heap.min with
  | some min =>
      if higherPrio (s.node node).value (s.node min).value then
        -- swap min cache
        let s := resetNode min s
        (rawBheapUnion higherPrio heap (some min) s).map
          fun (heap, s) => ({ heap with min := some node }, s)
      else rawBheapUnion higherPrio heap (some node) s
  | none => rawBheapUnion higherPrio heap (some node) s

def bheapUncacheMin (higherPrio : V → V → Bool) (heap : Bheap) (s : Store V) :
    Option (Bheap × Store V) :=
  match heap.min with
  | some min => bheapInsert higherPrio { heap with min := none } min s
  | none => some (heap, s)

/-- `bheap_union`: the result holds `target` and `addition`, in this order. -/
def bheapUnion (higherPrio : V → V → Bool) (target addition : Bheap) (s : Store V) :
    Option (Bheap × Bheap × Store V) :=
  match bheapUncacheMin higherPrio target s with
  | none => none
  | some (target, s) =>
      match bheapUncacheMin higherPrio addition s with
      | none => none
      | some (addition, s) =>
          (rawBheapUnion higherPrio target addition.head s).map
            fun (target, s) => (target, { addition with head := none }, s)

/-- `if (!heap->min) heap->min = __bheap_extract_min(...)`. -/
def cacheMin (higherPrio : V → V → Bool) (heap : Bheap) (s : Store V) :
    Option (Bheap × Store V) :=
  match heap.min with
  | some _ => some (heap, s)
  | none =>
      (rawBheapExtractMin higherPrio heap s).map fun (min, heap, s) => ({ heap with min := min }, s)

def bheapPeek (higherPrio : V → V → Bool) (heap : Bheap) (s : Store V) :
    Option (Option NodePtr × Bheap × Store V) :=
  (cacheMin higherPrio heap s).map fun (heap, s) => (heap.min, heap, s)

def bheapTake (higherPrio : V → V → Bool) (heap : Bheap) (s : Store V) :
    Option (Option NodePtr × Bheap × Store V) :=
  (cacheMin higherPrio heap s).map fun (heap, s) =>
    match heap.min with
    | some node =>
        (some node, { heap with min := none },
          s.modify node fun n => { n with degree := notInHeap })
    | none => (none, { heap with min := none }, s)

/-- Swap the values of `node` and `parent`, redirect both handles, swap the refs. -/
def swapWithParent (node parent : NodePtr) (s : Store V) : Store V :=
  let tmp := (s.node parent).value
  let s := s.modify parent fun n => { n with value := (s.node node).value }
  let s := s.modify node fun n => { n with value := tmp }
  let s := s.setHandle (s.node parent).ref node
  let s := s.setHandle (s.node node).ref parent
  let tmpRef := (s.node parent).ref
  let s := s.modify parent fun n => { n with ref := (s.node node).ref }
  s.modify node fun n => { n with ref := tmpRef }

/-- The two bubble-up loops.  `climbs` is the part of the loop condition that
    follows `parent &&`; the result is the node reached and whether it still has
    a parent. -/
def bubbleUpLoop (climbs : V → V → Bool) : Nat → NodePtr → Store V →
    Option (NodePtr × Bool × Store V)
  | 0, _, _ => none
  | fuel + 1, node, s =>
      match (s.node node).parent with
      | none => some (node, false, s)
      | some parent =>
          if climbs (s.node node).value (s.node parent).value then
            bubbleUpLoop climbs fuel parent (swapWithParent node parent s)
          else some (node, true, s)

/-- `bheap_decrease`: bubble up while the node beats its parent, then return
    `parent != NULL`. -/
def bheapDecrease (higherPrio : V → V → Bool) (node : NodePtr) (s : Store V) :
    Option (Bool × Store V) :=
  (bubbleUpLoop higherPrio stepBound node s).map fun (_, hasParent, s) => (hasParent, s)

/-- `while (pos != node)`: the root before `node`. -/
def findPrevLoop (node : NodePtr) (s : Store V) : Nat → Option NodePtr → Option NodePtr →
    Option (Option NodePtr)
  | 0, _, _ => none
  | fuel + 1, prev, pos =>
      if pos = some node then some prev
      else match pos with
        | none => none
        | some p => findPrevLoop node s fuel (some p) (s.node p).next

def bheapDelete (higherPrio : V → V → Bool) (heap : Bheap) (node : NodePtr) (s : Store V) :
    Option (Bheap × Store V) :=
  if heap.min ≠ some node then
    -- bubble up, whatever the priorities
    match bubbleUpLoop (fun _ _ => true) stepBound node s with
    | none => none
    | some (node, _, s) =>
        match findPrevLoop node s stepBound none heap.head with
        | none => none
        | some prev =>
            (unlinkRoot higherPrio heap prev node s).map fun (heap, s) =>
              (heap, s.modify node fun n => { n with degree := notInHeap })
  else some ({ heap with min := none }, s.modify node fun n => { n with degree := notInHeap })

end Litmus.LinkedHeap
