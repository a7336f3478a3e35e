import Litmus.Runs

/-!
# First-in first-out locks

A lock that is handed over: whoever asks while it is taken waits, and a release passes it
on to the one that has waited longest.
-/

namespace Litmus.FifoLock

open Runs

variable {α : Type}

/-- A lock, with the history of the requests and of the grants. -/
structure Lock (α : Type) where
  owner : Option α
  waiting : List α
  called : List α
  granted : List α

inductive Op (α : Type) where
  | request (a : α)
  | release
  | pass

namespace Lock

def free : Lock α where
  owner := none
  waiting := []
  called := []
  granted := []

def request (a : α) (l : Lock α) : Lock α :=
  match l.owner with
  | none => { l with owner := some a, called := l.called ++ [a], granted := l.granted ++ [a] }
  | some _ => { l with waiting := l.waiting ++ [a], called := l.called ++ [a] }

def release (l : Lock α) : Lock α :=
  match l.waiting with
  | [] => { l with owner := none }
  | b :: rest =>
      { l with owner := some b, waiting := rest, granted := l.granted ++ [b] }

def exec (l : Lock α) : Op α → Lock α
  | .request a => l.request a
  | .release => l.release
  | .pass => l

/-- The lock is granted in the order of the requests, and it is not free while anybody
    waits. -/
structure Fair (l : Lock α) : Prop where
  order : l.called = l.granted ++ l.waiting
  busy : l.owner = none → l.waiting = []

theorem Fair.free : (free : Lock α).Fair := ⟨rfl, fun _ => rfl⟩

theorem Fair.request {l : Lock α} (h : l.Fair) (a : α) : (l.request a).Fair := by
  unfold Lock.request
  split
  · rename_i hfr
    have hn : l.waiting = [] := h.busy hfr
    constructor
    · simp [h.order, hn]
    exact fun _ => hn
  rename_i b htak
  constructor
  · simp [h.order]
  intro hfr
  cases htak.symm.trans hfr

theorem Fair.release {l : Lock α} (h : l.Fair) : l.release.Fair := by
  unfold Lock.release
  split
  · exact ⟨h.order, fun _ => by assumption⟩
  rename_i b rest hwai
  constructor
  · simp [h.order, hwai]
  intro hfr
  cases hfr

theorem Fair.exec {l : Lock α} (h : l.Fair) (op : Op α) : (l.exec op).Fair := by
  cases op with
  | request a => exact h.request a
  | release => exact h.release
  | pass => exact h

end Lock

end Litmus.FifoLock
