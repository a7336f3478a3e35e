import Litmus.Custody
import Litmus.Pfair

/-!
# The release wheel of PFAIR

Where the tasks are: in the ready queue, in a slot of the wheel, or linked to a CPU.  The
wheel is right when every task is in the slot of its release and within one turn of what
has been merged; then a slot is merged exactly when its tasks are due.
-/

namespace Litmus.Pfair

open BinomialForest Custody Runs Function Heap Multiset

variable {n : Nat}

inductive Place (n : Nat) where
  | ready
  | slot (i : Nat)
  | linked (c : Fin n)
deriving DecidableEq

namespace State

def held (st : State n) : Place n → Multiset TaskId
  | .ready => st.readyQueue.elems
  | .slot i => (st.releaseQueue i).elems
  | .linked c => Heap.cached (st.linked c)

def Queued (st : State n) (t : TaskId) : Prop :=
  t ∈ st.readyQueue.elems ∨ ∃ i, t ∈ (st.releaseQueue i).elems

/-- A task is in the system until it is found absent at the end of a job. -/
def Live (st : State n) (t : TaskId) : Prop :=
  (st.task t).realtime = true ∧ (st.task t).pfair.sporadicRelease = false

/-- The tasks of `L`, and no others, are in the system; those of the wheel are in the slots
    of their releases, after `lo` and at most one turn after `hi`. -/
structure Filed (lo hi : Nat) (L : TaskId → Prop) (st : State n) : Prop where
  custody : Sound st.held L
  node : ∀ t, st.inHeap t = true ↔ st.Queued t
  wheel : ∀ i, ∀ t ∈ (st.releaseQueue i).elems, i = slot (st.task t).curRelease ∧
    lo < (st.task t).curRelease ∧ (st.task t).curRelease ≤ hi + pfairMaxPeriod
  ready : ∀ t ∈ st.readyQueue.elems, (st.task t).curRelease ≤ st.mergeTime
  linked : ∀ c t, st.linked c = some t → (st.task t).curRelease ≤ hi + 1

structure Kept (st st' : State n) : Prop where
  mergeTime : st'.mergeTime = st.mergeTime
  curTick : st'.curTick = st.curTick
  pfairTime : st'.pfairTime = st.pfairTime
  tickPeriod : st'.tickPeriod = st.tickPeriod
  current : st'.current = st.current

theorem Kept.refl (st : State n) : Kept st st := ⟨rfl, rfl, rfl, rfl, rfl⟩

theorem Kept.trans {st st' st'' : State n} (h : Kept st st') (h' : Kept st' st'') : Kept st st'' :=
  ⟨h'.mergeTime.trans h.mergeTime, h'.curTick.trans h.curTick, h'.pfairTime.trans h.pfairTime,
    h'.tickPeriod.trans h.tickPeriod, h'.current.trans h.current⟩

theorem held_linked {st : State n} {c : Fin n} {t : TaskId} :
    t ∈ st.held (.linked c) ↔ st.linked c = some t := by
  rcases hl : st.linked c with _ | u <;> simp [held, hl, cached, eq_comm]

namespace Filed

variable {lo hi : Nat} {L L' : TaskId → Prop} {st st' : State n} {t u : TaskId} {c : Fin n}

section

variable (h : Filed lo hi L st)

include h

theorem not_queued (ht : ¬L t) : ¬st.Queued t := by
  rintro (hq | ⟨i, hq⟩)
  · exact h.custody.not_mem ht .ready hq
  exact h.custody.not_mem ht (.slot i) hq

theorem inHeap_eq (ht : ¬L t) : st.inHeap t = false :=
  Bool.eq_false_iff.mpr fun hq => h.not_queued ht ((h.node t).mp hq)

theorem linked_inj {d : Fin n} (hc : st.linked c = some t) (hd : st.linked d = some t) : c = d := by
  have := h.custody.unique (held_linked.mpr hc) (held_linked.mpr hd)
  exact Place.linked.inj this

theorem live_of_linked (hc : st.linked c = some t) : L t :=
  (h.custody.live_iff t).mp ⟨.linked c, held_linked.mpr hc⟩

theorem live_of_ready (ht : t ∈ st.readyQueue.elems) : L t :=
  (h.custody.live_iff t).mp ⟨.ready, ht⟩

theorem congr_live (hL : ∀ u, L' u ↔ L u) : Filed lo hi L' st where
  custody := h.custody.congr (fun _ => rfl) hL
  node := h.node
  wheel := h.wheel
  ready := h.ready
  linked := h.linked

theorem congr (hr : st'.readyQueue = st.readyQueue)
    (hrl : st'.releaseQueue = st.releaseQueue) (hhea : st'.inHeap = st.inHeap)
    (hlk : st'.linked = st.linked) (hmer : st'.mergeTime = st.mergeTime)
    (hre : ∀ u, L u → (st'.task u).curRelease = (st.task u).curRelease) : Filed lo hi L st' where
  custody := by
    refine h.custody.congr (fun p => ?_) fun _ => .rfl
    rcases p with _ | i | c <;> simp [held, hr, hrl, hlk]
  node u := by
    rw [hhea, h.node]
    simp [Queued, hr, hrl]
  wheel i u hu := by
    rw [hrl] at hu
    rw [hre u ((h.custody.live_iff u).mp ⟨.slot i, hu⟩)]
    exact h.wheel i u hu
  ready u hu := by
    rw [hr] at hu
    rw [hre u (h.live_of_ready hu), hmer]
    exact h.ready u hu
  linked c u hu := by
    rw [hlk] at hu
    rw [hre u (h.live_of_linked hu)]
    exact h.linked c u hu

theorem mono {hi' : Nat} (hhi : hi ≤ hi') : Filed lo hi' L st where
  custody := h.custody
  node := h.node
  wheel i u hu := by
    obtain ⟨hs, hlo, hle⟩ := h.wheel i u hu
    exact ⟨hs, hlo, by omega⟩
  ready := h.ready
  linked c u hu := (h.linked c u hu).trans (Nat.add_le_add_right hhi 1)

theorem modify_outside (ht : ¬L t) (f : PfairTask n → PfairTask n) :
    Filed lo hi L (st.modify t f) := by
  refine h.congr rfl rfl rfl rfl rfl fun u hu => ?_
  have hne : u ≠ t := by
    rintro rfl
    exact ht hu
  simp [modify, update_of_ne hne]

theorem modify_keep (f : PfairTask n → PfairTask n)
    (hf : ∀ p, (f p).curRelease = p.curRelease) : Filed lo hi L (st.modify t f) := by
  refine h.congr rfl rfl rfl rfl rfl fun u _ => ?_
  by_cases hu : u = t
  · subst hu
    simp [modify, hf]
  simp [modify, update_of_ne hu]

/-! ### Filing and queuing -/

theorem addRelease (ht : ¬L t) (hlo : lo < (st.task t).curRelease)
    (hhi : (st.task t).curRelease ≤ hi + pfairMaxPeriod) :
    ∃ st', st.pfairAddRelease t = some st' ∧ Kept st st' ∧ st'.task = st.task ∧
      st'.linked = st.linked ∧ Filed lo hi (fun u => u = t ∨ L u) st' := by
  have hn := h.inHeap_eq ht
  refine ⟨(st.setRelq (st.task t).curRelease ((st.relq (st.task t).curRelease).insert st.order
    t)).setInHeap t true, if_neg (by simp [hn]), ⟨rfl, rfl, rfl, rfl, rfl⟩, rfl, rfl, ?_⟩
  have hm : ∀ i u, u ∈ (update st.releaseQueue (slot (st.task t).curRelease)
      ((st.relq (st.task t).curRelease).insert st.order t) i).elems ↔
        u = t ∧ i = slot (st.task t).curRelease ∨ u ∈ (st.releaseQueue i).elems := by
    intro i u
    by_cases hi : i = slot (st.task t).curRelease
    · subst hi
      simp [update_self, elems_insert, relq]
    simp [hi]
  constructor
  · refine h.custody.enter (b := .slot (slot (st.task t).curRelease)) ht ?_ ?_ fun _ => .rfl
    · simp [held, setRelq, setInHeap, elems_insert, relq]
    intro p hp
    rcases p with _ | i | c
    · rfl
    · have hi : i ≠ slot (st.task t).curRelease := fun hi => hp (by rw [hi])
      simp [held, setRelq, setInHeap, update_of_ne hi]
    rfl
  · intro u
    simp only [setRelq, setInHeap, Queued, hm]
    by_cases hu : u = t
    · subst hu
      simp
    rw [update_of_ne hu, h.node]
    simp [Queued, hu]
  · intro i u hu
    rcases (hm i u).mp hu with ⟨rfl, rfl⟩ | hu
    · exact ⟨rfl, hlo, hhi⟩
    exact h.wheel i u hu
  · exact h.ready
  · exact h.linked

theorem addReady (ht : ¬L t) (hle : (st.task t).curRelease ≤ st.mergeTime) :
    ∃ st', st.addReady t = some st' ∧
      st' = (st.setReady (st.readyQueue.insert st.order t)).setInHeap t true ∧
      Filed lo hi (fun u => u = t ∨ L u) st' := by
  have hn := h.inHeap_eq ht
  refine ⟨_, if_neg (by simp [hn]), rfl, ?_⟩
  have hm : ∀ u, u ∈ (st.readyQueue.insert st.order t).elems ↔
      u = t ∨ u ∈ st.readyQueue.elems := by
    intro u
    rw [elems_insert, mem_cons]
  constructor
  · refine h.custody.enter (b := .ready) ht ?_ ?_ fun _ => .rfl
    · simp [held, setReady, setInHeap, elems_insert]
    intro p hp
    rcases p with _ | i | c
    · exact absurd rfl hp
    · rfl
    rfl
  · intro u
    simp only [setReady, setInHeap, Queued, hm]
    by_cases hu : u = t
    · subst hu
      simp
    rw [update_of_ne hu, h.node]
    simp [Queued, hu]
  · exact h.wheel
  · intro u hu
    rcases (hm u).mp hu with rfl | hu
    · exact hle
    exact h.ready u hu
  · exact h.linked

theorem peekReady : Filed lo hi L st.peekReady.2 := by
  have hel : (st.readyQueue.peek st.order).2.elems = st.readyQueue.elems := elems_cacheMin _ _
  constructor
  · refine h.custody.congr (fun p => ?_) fun _ => .rfl
    rcases p with _ | i | c
    · exact hel
    · rfl
    rfl
  · intro u
    rw [show st.peekReady.2.inHeap = st.inHeap from rfl, h.node]
    simp [Queued, State.peekReady, setReady, hel]
  · exact h.wheel
  · intro u hu
    rw [State.peekReady, setReady, hel] at hu
    exact h.ready u hu
  · exact h.linked

theorem node_leave (hso : Sound st'.held fun u => u ≠ t ∧ L u)
    (hhea : st'.inHeap = update st.inHeap t false) (hq : ∀ u, u ≠ t → (st'.Queued u ↔ st.Queued u))
    (u : TaskId) : st'.inHeap u = true ↔ st'.Queued u := by
  rw [hhea]
  by_cases hu : u = t
  · subst hu
    have hn : ¬st'.Queued u := by
      rintro (hq | ⟨i, hq⟩)
      · exact hso.not_mem (fun hl => hl.1 rfl) .ready hq
      exact hso.not_mem (fun hl => hl.1 rfl) (.slot i) hq
    rw [update_self]
    exact iff_of_false Bool.false_ne_true hn
  rw [update_of_ne hu, h.node, hq u hu]

theorem leaveReady {H : Heap TaskId} (hco : st.readyQueue.elems = t ::ₘ H.elems) :
    Filed lo hi (fun u => u ≠ t ∧ L u) ((st.setReady H).setInHeap t false) := by
  have hso : Sound ((st.setReady H).setInHeap t false).held fun u => u ≠ t ∧ L u := by
    refine h.custody.leave (a := .ready) hco ?_ fun _ => .rfl
    intro p hp
    rcases p with _ | i | c
    · exact absurd rfl hp
    · rfl
    rfl
  refine ⟨hso, h.node_leave hso rfl ?_, h.wheel, ?_, h.linked⟩
  · intro u hu
    simp [Queued, setReady, setInHeap, hco, hu]
  intro u hu
  refine h.ready u ?_
  rw [hco]
  exact mem_cons_of_mem hu

theorem leaveRelq {H : Heap TaskId} {time : Nat} (hco : (st.relq time).elems = t ::ₘ H.elems) :
    Filed lo hi (fun u => u ≠ t ∧ L u) ((st.setRelq time H).setInHeap t false) := by
  have hm : ∀ i u, u ∈ (update st.releaseQueue (slot time) H i).elems →
      u ∈ (st.releaseQueue i).elems := by
    intro i u hu
    by_cases hi : i = slot time
    · subst hi
      rw [update_self] at hu
      exact hco ▸ mem_cons_of_mem hu
    rwa [update_of_ne hi] at hu
  have hso : Sound ((st.setRelq time H).setInHeap t false).held fun u => u ≠ t ∧ L u := by
    refine h.custody.leave (a := .slot (slot time)) ?_ ?_ fun _ => .rfl
    · simp only [held, setRelq, setInHeap, update_self]
      exact hco
    intro p hp
    rcases p with _ | i | c
    · rfl
    · have hi : i ≠ slot time := fun hi => hp (by rw [hi])
      simp [held, setRelq, setInHeap, update_of_ne hi]
    rfl
  refine ⟨hso, h.node_leave hso rfl ?_, fun i u hu => h.wheel i u (hm i u hu),
    h.ready, h.linked⟩
  intro u hu
  have hs : ∀ i, u ∈ (update st.releaseQueue (slot time) H i).elems ↔
      u ∈ (st.releaseQueue i).elems := by
    refine fun i => ⟨hm i u, fun hi => ?_⟩
    by_cases his : i = slot time
    · subst his
      rw [update_self]
      have hi : u ∈ (st.relq time).elems := hi
      rw [hco, mem_cons] at hi
      exact hi.resolve_left hu
    rwa [update_of_ne his]
  simp [Queued, setRelq, setInHeap, hs]

theorem takeReady (hta : (st.readyQueue.take st.order).1 = some t) :
    st.takeReady = (some t, (st.setReady (st.readyQueue.take st.order).2).setInHeap t false) ∧
      Filed lo hi (fun u => u ≠ t ∧ L u)
        ((st.setReady (st.readyQueue.take st.order).2).setInHeap t false) := by
  refine ⟨?_, h.leaveReady (elems_take_some hta)⟩
  unfold State.takeReady
  rcases hH : st.readyQueue.take st.order with ⟨next, H⟩
  rw [hH] at hta
  simp only at hta
  rw [hta]

/-! ### Links -/

theorem unlink (hc : st.linked c = some t) :
    Filed lo hi (fun u => u ≠ t ∧ L u) (st.setLinked c none) where
  custody := by
    refine h.custody.leave (a := .linked c) ?_ ?_ fun _ => .rfl
    · simp only [held, setLinked, update_self, hc, cached]
      rfl
    intro p hp
    rcases p with _ | i | d
    · rfl
    · rfl
    have hd : d ≠ c := fun hd => hp (by rw [hd])
    simp [held, setLinked, update_of_ne hd]
  node := h.node
  wheel := h.wheel
  ready := h.ready
  linked d u hu := by
    refine h.linked d u ?_
    by_cases hd : d = c
    · subst hd
      simp [setLinked] at hu
    simpa [setLinked, update_of_ne hd] using hu

theorem link (ht : ¬L t) (hc : st.linked c = none)
    (hle : (st.task t).curRelease ≤ hi + 1) :
    Filed lo hi (fun u => u = t ∨ L u) (st.setLinked c (some t)) where
  custody := by
    refine h.custody.enter (b := .linked c) ht ?_ ?_ fun _ => .rfl
    · simp only [held, setLinked, update_self, hc, cached]
      rfl
    intro p hp
    rcases p with _ | i | d
    · rfl
    · rfl
    have hd : d ≠ c := fun hd => hp (by rw [hd])
    simp [held, setLinked, update_of_ne hd]
  node := h.node
  wheel := h.wheel
  ready := h.ready
  linked d u hu := by
    by_cases hd : d = c
    · subst hd
      simp only [setLinked, update_self, Option.some.injEq] at hu
      subst hu
      exact hle
    exact h.linked d u (by simpa [setLinked, update_of_ne hd] using hu)

end

theorem setLinked_setLinked (st : State n) (c : Fin n) (a b : Option TaskId) :
    (st.setLinked c a).setLinked c b = st.setLinked c b := by
  simp [setLinked]

theorem relink (h : Filed lo hi L st) (ht : ¬L t) (hc : st.linked c = some u)
    (hle : (st.task t).curRelease ≤ hi + 1) :
    Filed lo hi (fun v => v = t ∨ v ≠ u ∧ L v) (st.setLinked c (some t)) := by
  have hem := h.unlink hc
  have hin := hem.link (t := t) (c := c) (fun hl => ht hl.2) (by simp [setLinked]) hle
  rwa [setLinked_setLinked] at hin

/-! ### Dropping a task -/

theorem forget (h : Filed lo hi L st) (ht : ¬st.Queued t) :
    Filed lo hi (fun u => u ≠ t ∧ L u) (st.forget t) := by
  by_cases hc : ∃ c, st.linked c = some t
  · obtain ⟨c, hc⟩ := hc
    refine (h.unlink hc).congr rfl rfl rfl ?_ rfl fun _ _ => rfl
    funext d
    by_cases hd : d = c
    · subst hd
      simp [State.forget, setLinked, hc]
    have hne : st.linked d ≠ some t := fun hdt => hd (h.linked_inj hdt hc)
    simp [State.forget, setLinked, hd, hne]
  have hn : ¬L t := by
    intro hl
    obtain ⟨p, hp⟩ := (h.custody.live_iff t).mpr hl
    rcases p with _ | i | c
    · exact ht (.inl hp)
    · exact ht (.inr ⟨i, hp⟩)
    exact hc ⟨c, held_linked.mp hp⟩
  have hliv : ∀ u, (u ≠ t ∧ L u) ↔ L u := by
    intro u
    refine ⟨And.right, fun hu => ⟨?_, hu⟩⟩
    rintro rfl
    exact hn hu
  refine (h.congr_live hliv).congr rfl rfl rfl ?_ rfl fun _ _ => rfl
  funext d
  exact if_neg fun hd => hc ⟨d, hd⟩

theorem held_forget (hu : u ≠ t) (c : Fin n) :
    u ∈ (st.forget t).held (.linked c) ↔ u ∈ st.held (.linked c) := by
  rw [held_linked, held_linked]
  simp only [State.forget]
  split
  · rename_i hc
    simp [hc, Ne.symm hu]
  rfl

theorem dropAllReferences (h : Filed lo hi L st) (hlo : st.mergeTime ≤ lo) (t : TaskId) :
    ∃ st', st.dropAllReferences t = some st' ∧ Kept st st' ∧ st'.task = st.task ∧
      (∀ p u, u ≠ t → (u ∈ st'.held p ↔ u ∈ st.held p)) ∧
      Filed lo hi (fun u => u ≠ t ∧ L u) st' := by
  unfold State.dropAllReferences
  by_cases hq : st.inHeap t = true
  · rw [if_pos hq]
    -- what remains once the node is out of its heap
    have hdo : ∀ st1 : State n, Filed lo hi (fun u => u ≠ t ∧ L u) st1 →
        Filed lo hi (fun u => u ≠ t ∧ L u) (st1.forget t) := by
      intro st1 h1
      refine (h1.forget (h1.not_queued fun hl => hl.1 rfl)).congr_live fun u => ?_
      exact ⟨fun hu => ⟨hu.1, hu⟩, And.right⟩
    rcases (h.node t).mp hq with hr | ⟨i, hs⟩
    · rw [if_pos (h.ready t hr)]
      obtain ⟨H, hH⟩ : ∃ H, st.readyQueue.delete st.order t = some H := delete_isSome hr
      have hco := elems_delete hH (h.custody.nodup .ready)
      rw [hH]
      refine ⟨_, rfl, ⟨rfl, rfl, rfl, rfl, rfl⟩, rfl, ?_, hdo _ (h.leaveReady hco)⟩
      intro p u hu
      rcases p with _ | i | c
      · simp [held, State.forget, setReady, setInHeap, hco, hu]
      · rfl
      exact held_forget hu c
    obtain ⟨rfl, hlt, _⟩ := h.wheel i t hs
    rw [if_neg (by omega)]
    obtain ⟨H, hH⟩ : ∃ H, (st.relq (st.task t).curRelease).delete st.order t = some H :=
      delete_isSome hs
    have hco := elems_delete hH (h.custody.nodup (.slot _))
    simp only [hH]
    refine ⟨_, rfl, ⟨rfl, rfl, rfl, rfl, rfl⟩, rfl, ?_, hdo _ (h.leaveRelq hco)⟩
    intro p u hu
    rcases p with _ | i | c
    · rfl
    · by_cases hi : i = slot (st.task t).curRelease
      · subst hi
        have hm : u ∈ (st.relq (st.task t).curRelease).elems ↔ u ∈ H.elems := by
          rw [hco, mem_cons, or_iff_right hu]
        simp only [held, State.forget, setRelq, setInHeap, update_self]
        exact hm.symm
      simp [held, State.forget, setRelq, setInHeap, update_of_ne hi]
    exact held_forget hu c
  rw [if_neg hq]
  refine ⟨_, rfl, ⟨rfl, rfl, rfl, rfl, rfl⟩, rfl, ?_, h.forget fun hq' => hq ((h.node t).mpr hq')⟩
  intro p u hu
  rcases p with _ | i | c
  · rfl
  · rfl
  exact held_forget hu c

/-! ### Merging a slot -/

theorem mem_relq_iff (h : Filed lo hi L st) {time : Nat} (htim : lo + 1 = time) (hhi : hi < time)
    {i : Nat} (ht : t ∈ (st.releaseQueue i).elems) :
    t ∈ (st.relq time).elems ↔ (st.task t).curRelease = time := by
  obtain ⟨rfl, hlt, hle⟩ := h.wheel i t ht
  constructor
  · intro hin
    have hs := (h.wheel _ t hin).1
    unfold slot pfairMaxPeriod at hs
    unfold pfairMaxPeriod at hle
    omega
  intro heq
  rw [← heq]
  exact ht

theorem pollReleases (h : Filed lo hi L st) {time : Nat} (htim : lo + 1 = time) (hhi : hi < time)
    (hmer : st.mergeTime ≤ time) : Filed time hi L (st.pollReleases time) := by
  have hre : ∀ i u, u ∈ (update st.releaseQueue (slot time) empty i).elems ↔
      i ≠ slot time ∧ u ∈ (st.releaseQueue i).elems := by
    intro i u
    by_cases hi : i = slot time
    · subst hi
      simp [update_self]
    simp [hi]
  have hun : (st.readyQueue.union st.order (st.relq time)).elems =
      st.readyQueue.elems + (st.relq time).elems := elems_union _ _ _
  constructor
  · refine h.custody.transfer (a := .slot (slot time)) (b := .ready)
      (by simp) ?_ hun ?_ fun _ => .rfl
    · simp only [held, State.pollReleases, setRelq, update_self, elems_empty, add_zero]
      rfl
    intro p hp hp'
    rcases p with _ | i | c
    · exact absurd rfl hp'
    · have hi : i ≠ slot time := fun hi => hp (by rw [hi])
      simp [held, State.pollReleases, setRelq, setReady, update_of_ne hi]
    rfl
  · intro u
    rw [show (st.pollReleases time).inHeap = st.inHeap from rfl, h.node]
    simp only [Queued, State.pollReleases, setRelq, setReady, hun, mem_add, hre]
    constructor
    · rintro (hu | ⟨i, hu⟩)
      · exact .inl (.inl hu)
      by_cases hi : i = slot time
      · subst hi
        exact .inl (.inr hu)
      exact .inr ⟨i, hi, hu⟩
    rintro ((hu | hu) | ⟨i, _, hu⟩)
    · exact .inl hu
    · exact .inr ⟨_, hu⟩
    exact .inr ⟨i, hu⟩
  · intro i u hu
    obtain ⟨hi, hu⟩ := (hre i u).mp hu
    obtain ⟨rfl, hlt, hle⟩ := h.wheel i u hu
    have hne : (st.task u).curRelease ≠ time := fun heq => hi (by rw [heq])
    exact ⟨rfl, by change time < (st.task u).curRelease; omega, hle⟩
  · intro u hu
    change u ∈ (st.readyQueue.union st.order (st.relq time)).elems at hu
    rw [hun, mem_add] at hu
    rcases hu with hu | hu
    · exact (h.ready u hu).trans hmer
    exact ((h.mem_relq_iff htim hhi hu).mp hu).le
  · exact h.linked

end Filed

end State

end Litmus.Pfair
