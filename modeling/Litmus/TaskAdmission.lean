import Litmus.Runs
import Litmus.RtTask
import Mathlib.Data.Finset.Card

/-!
# Admission and exit of tasks

`litmus_admit_task` and `litmus_exit_task` of `litmus.c`, with the heap nodes and release heaps
that they allocate and free.
-/

namespace Litmus.Admission

open Runs Function

/-- The objects of one kind: `tsk_rt(t)->heap_node` or `rel_heap`, and the addresses in use. -/
structure Pool where
  ptr : TaskId → Option Nat
  live : Finset Nat

def Pool.alloc (t : TaskId) (a : Option Nat) (p : Pool) : Pool :=
  { ptr := update p.ptr t a, live := a.elim p.live (insert · p.live) }

/-- An address that is not in use, and the null pointer, cannot be freed. -/
def Pool.free (t : TaskId) (p : Pool) : Option Pool :=
  match p.ptr t with
  | some a => if a ∈ p.live then some { p with live := p.live.erase a } else none
  | none => none

structure State where
  /-- the policy, which the callers set to `SCHED_LITMUS` after an admission, and back -/
  realtime : TaskId → Bool
  nodes : Pool
  heaps : Pool
  rtTaskCount : Int

inductive Op where
  /-- with what the two allocations and the plugin's `admit_task` return -/
  | admitTask (t : TaskId) (params : TaskParams) (node heap : Option Nat) (verdict : Int)
  | exit (t : TaskId)

variable (online : BitVec 32 → Bool)

/-- The parameters that `litmus_admit_task` refuses with `-EINVAL`. -/
def Refused (params : TaskParams) : Prop :=
  params.period = 0 ∨ params.period < params.execCost ∨ online params.cpu = false

instance (params : TaskParams) : Decidable (Refused online params) :=
  inferInstanceAs (Decidable (_ ∨ _ ∨ _))

namespace State

def init : State := ⟨fun _ => false, ⟨fun _ => none, ∅⟩, ⟨fun _ => none, ∅⟩, 0⟩

def litmusAdmitTask (t : TaskId) (params : TaskParams) (node heap : Option Nat) (verdict : Int)
    (st : State) : Option (Int × State) :=
  if Refused online params then some (-22, st)
  else
    let st := { st with nodes := st.nodes.alloc t node, heaps := st.heaps.alloc t heap }
    if node = none ∨ heap = none then
      (st.nodes.free t).bind fun nodes => (st.heaps.free t).map fun heaps =>
        (-12, { st with nodes, heaps })
    else if verdict = 0 then
      some (0, { st with realtime := update st.realtime t true, rtTaskCount := st.rtTaskCount + 1 })
    else some (verdict, st)

def litmusExitTask (t : TaskId) (st : State) : Option State :=
  if st.realtime t then
    (st.nodes.free t).bind fun nodes => (st.heaps.free t).map fun heaps =>
      { realtime := update st.realtime t false, nodes, heaps, rtTaskCount := st.rtTaskCount - 1 }
  else some st

def exec (st : State) : Op → Option (Int × State)
  | .admitTask t params node heap verdict => st.litmusAdmitTask online t params node heap verdict
  | .exit t => (st.litmusExitTask t).map (0, ·)

/-- `BUG_ON(is_realtime(tsk))`, and the allocators return addresses that are not in use. -/
def Legal (st : State) : Op → Prop
  | .admitTask t _ node heap _ =>
      st.realtime t = false ∧ (∀ a ∈ node, a ∉ st.nodes.live) ∧ ∀ a ∈ heap, a ∉ st.heaps.live
  | .exit _ => True

def Balanced (st : State) : Prop :=
  (st.nodes.live.card : Int) = st.rtTaskCount ∧ (st.heaps.live.card : Int) = st.rtTaskCount

end State

open State (exec init litmusAdmitTask litmusExitTask)

def Step (st : State) (op : Op) (st' : State) : Prop :=
  st.Legal op ∧ ∃ r, st.exec online op = some (r, st')

/-- An admission that is refused before it allocates, or that succeeds. -/
def Op.Clean : Op → Prop
  | .admitTask _ params node heap verdict =>
      Refused online params ∨ node ≠ none ∧ heap ≠ none ∧ verdict = 0
  | .exit _ => True

variable {real : TaskId → Bool} {p : Pool} {count : Int} {t : TaskId} {a : Nat}

/-- Every real-time task has an object of its own, and there are as many as `count`. -/
structure Pool.Owned (p : Pool) (real : TaskId → Bool) (count : Int) : Prop where
  own : ∀ t, real t = true → ∃ a ∈ p.live, p.ptr t = some a
  inj : ∀ t u, real t = true → real u = true → p.ptr t = p.ptr u → t = u
  card : (p.live.card : Int) = count

theorem Pool.Owned.alloc (h : p.Owned real count) (hfr : a ∉ p.live) :
    (p.alloc t (some a)).Owned (update real t true) (count + 1) := by
  have ho : ∀ u, real u = true → p.ptr u ≠ some a := by
    intro u hu heq
    obtain ⟨b, hb, hpt⟩ := h.own u hu
    cases heq.symm.trans hpt
    exact hfr hb
  refine ⟨fun u hu => ?_, fun u v hu hv heq => ?_, by simp [Pool.alloc, hfr, h.card]⟩
  · rcases eq_or_ne u t with rfl | hut
    · exact ⟨a, by simp [Pool.alloc]⟩
    obtain ⟨b, hb, hpt⟩ := h.own u (by simpa [hut] using hu)
    exact ⟨b, by simp [Pool.alloc, hb, hut, hpt]⟩
  by_cases hut : u = t <;> by_cases hvt : v = t <;>
    simp only [Pool.alloc, update_apply, hut, hvt, if_true, if_false] at hu hv heq ⊢
  · exact absurd heq.symm (ho v hv)
  · exact absurd heq (ho u hu)
  exact h.inj u v hu hv heq

theorem Pool.Owned.free (h : p.Owned real count) (ht : real t = true) :
    ∃ p', p.free t = some p' ∧ p'.Owned (update real t false) (count - 1) := by
  obtain ⟨a, ha, hpt⟩ := h.own t ht
  have hold : ∀ {u}, update real t false u = true → u ≠ t ∧ real u = true := by
    intro u hu
    rw [update_apply] at hu
    split at hu
    · cases hu
    rename_i hut
    exact ⟨hut, hu⟩
  refine ⟨{ p with live := p.live.erase a }, by simp [Pool.free, hpt, ha], fun u hu => ?_,
    fun u v hu hv => h.inj u v (hold hu).2 (hold hv).2, ?_⟩
  · obtain ⟨hut, hrt⟩ := hold hu
    obtain ⟨b, hb, hptr'⟩ := h.own u hrt
    refine ⟨b, Finset.mem_erase.mpr ⟨?_, hb⟩, hptr'⟩
    rintro rfl
    exact hut (h.inj u t hrt ht (hptr'.trans hpt.symm))
  rw [← h.card, ← Finset.card_erase_add_one ha, Nat.cast_succ, add_sub_cancel_right]

structure Inv (st : State) : Prop where
  nodes : st.nodes.Owned st.realtime st.rtTaskCount
  heaps : st.heaps.Owned st.realtime st.rtTaskCount

variable {online} {st st' : State} {op : Op}

theorem Inv.balanced (h : Inv st) : st.Balanced := ⟨h.nodes.card, h.heaps.card⟩

theorem Inv.exec_clean (h : Inv st) (hl : st.Legal op) (hcle : op.Clean online) :
    ∃ r st', st.exec online op = some (r, st') ∧ Inv st' ∧ (r ≠ 0 → st' = st) := by
  rcases op with ⟨t, params, node, heap, verdict⟩ | t
  · by_cases hre : Refused online params
    · exact ⟨_, st, if_pos hre, h, fun _ => rfl⟩
    obtain ⟨hnod, hhea, rfl⟩ := hcle.resolve_left hre
    obtain ⟨a, rfl⟩ := Option.ne_none_iff_exists'.mp hnod
    obtain ⟨b, rfl⟩ := Option.ne_none_iff_exists'.mp hhea
    exact ⟨0, _, if_neg hre,
      ⟨h.nodes.alloc (hl.2.1 a rfl), h.heaps.alloc (hl.2.2 b rfl)⟩, fun h0 => absurd rfl h0⟩
  by_cases hrt : st.realtime t = true
  · obtain ⟨nodes, hnds, hn⟩ := h.nodes.free hrt
    obtain ⟨heaps, hhps, hh⟩ := h.heaps.free hrt
    exact ⟨0, _, by rw [exec, litmusExitTask, if_pos hrt, hnds, hhps]; rfl, ⟨hn, hh⟩,
      fun h0 => absurd rfl h0⟩
  exact ⟨0, st, by rw [exec, litmusExitTask, if_neg hrt]; rfl, h, fun _ => rfl⟩

/-- An admission that is not clean frees a null pointer or leaves two objects behind. -/
theorem Inv.not_balanced (h : Inv st) (hl : st.Legal op) (hcl : ¬op.Clean online) {r : Int}
    (hx : st.exec online op = some (r, st')) : ¬st'.Balanced := by
  rcases op with ⟨t, params, node, heap, verdict⟩ | t
  · obtain ⟨hre, hn⟩ := not_or.mp hcl
    rcases node with _ | a
    · simp [exec, litmusAdmitTask, hre, Pool.free, Pool.alloc] at hx
    rcases heap with _ | b
    · simp [exec, litmusAdmitTask, hre, Pool.free, Pool.alloc] at hx
    have hver : verdict ≠ 0 := fun h0 => hn ⟨nofun, nofun, h0⟩
    simp only [exec, litmusAdmitTask, hre, reduceCtorEq, or_self, if_false, hver] at hx
    cases hx
    intro hbal
    have hcar := hbal.1
    simp [Pool.alloc, Finset.card_insert_of_notMem (hl.2.1 a rfl), h.nodes.card] at hcar
  exact absurd trivial hcl

/-- As long as every admission is refused at once or succeeds, there are as many heap nodes and
    release heaps as real-time tasks; the next call keeps this exactly if it is such a call, too,
    and then it changes nothing if it fails. -/
theorem admission_balanced_iff {ops : List Op} (hrun : Run (Step online) init ops st)
    (hclean : ∀ op ∈ ops, op.Clean online) (hl : st.Legal op) :
    st.Balanced ∧
      ((∃ r st', st.exec online op = some (r, st') ∧ st'.Balanced ∧ (r ≠ 0 → st' = st)) ↔
        op.Clean online) := by
  have hI : Inv st := by
    clear hl
    induction hrun with
    | nil => constructor <;> exact ⟨nofun, nofun, rfl⟩
    | snoc _ hs ih =>
      obtain ⟨hl, r, hx⟩ := hs
      obtain ⟨_, _, hx', hI, -⟩ := (ih fun op hop => hclean op (by simp [hop])).exec_clean
        hl (hclean _ (by simp))
      cases hx.symm.trans hx'
      exact hI
  refine ⟨hI.balanced, ?_, fun hop => ?_⟩
  · rintro ⟨r, st', hx, hbal, -⟩
    exact by_contra fun hnot => hI.not_balanced hl hnot hx hbal
  obtain ⟨r, st', hx, hinv', hsame⟩ := hI.exec_clean hl hop
  exact ⟨r, st', hx, hinv'.balanced, hsame⟩

def halfUsed : TaskParams :=
  { execCost := 5, period := 10, cpu := 0, budgetPolicy := .noEnforcement }

theorem admission_balanced_iff_first :
    ∃ r st', State.init.exec (fun _ => true) (.admitTask 1 halfUsed (some 0) (some 0) 0) =
      some (r, st') ∧ st'.Balanced ∧ (r ≠ 0 → st' = init) := by
  refine (admission_balanced_iff .nil (by simp) ?_).2.mpr (.inr ⟨nofun, nofun, rfl⟩)
  exact ⟨rfl, by simp [init], by simp [init]⟩

/-- Two rejections by the plugin leave two nodes and two heaps behind, and an allocation that
    fails makes the kernel free a null pointer. -/
theorem admission_leaks :
    (∃ st, Run (Step fun _ => true) init
        [.admitTask 1 halfUsed (some 0) (some 0) (-22),
          .admitTask 1 halfUsed (some 1) (some 1) (-22)] st ∧
      st.nodes.live.card = 2 ∧ st.heaps.live.card = 2 ∧ st.rtTaskCount = 0) ∧
    State.init.exec (fun _ => true) (.admitTask 1 halfUsed (some 0) none 0) = none := by
  refine ⟨⟨_, .cons ⟨⟨rfl, ?_, ?_⟩, _, rfl⟩ (.cons ⟨⟨rfl, ?_, ?_⟩, _, rfl⟩ .nil), ?_⟩, rfl⟩
  all_goals decide

end Litmus.Admission
