import Litmus.Custody
import Litmus.ReleaseQueue

/-!
# Release heaps are exact

The slots of the release queue are sorted by release time, a queued heap is armed once and
by its owner, and a task goes from the hand of `add_release` through one heap to the ready
queue.
-/

namespace Litmus.ReleaseQueue

open BinomialForest Custody Runs WrapOrder Function List

/-! ### Searching a slot -/

def Increasing (releaseTime : TaskId → LtTime) (hs : List TaskId) : Prop :=
  hs.Pairwise fun g h => ltBefore (releaseTime g) (releaseTime h) = true

section

variable {releaseTime : TaskId → LtTime} {base time : LtTime} {hs : List TaskId}

theorem ltBefore_trans {a b c : LtTime} (ha : InWindow base a) (hb : InWindow base b)
    (hc : InWindow base c) (hab : ltBefore a b = true) (hbc : ltBefore b c = true) :
    ltBefore a c = true := by
  rw [ltBefore_iff ha hb] at hab
  rw [ltBefore_iff hb hc] at hbc
  rw [ltBefore_iff ha hc]
  exact lt_trans hab hbc

theorem ltBefore_of_not {a b : LtTime} (ha : InWindow base a) (hb : InWindow base b) (hne : a ≠ b)
    (hn : ¬ltBefore a b = true) : ltBefore b a = true := by
  rw [ltBefore_iff ha hb] at hn
  rw [ltBefore_iff hb ha]
  have hoff : offset base a ≠ offset base b := fun h => hne (offset_inj.mp h)
  omega

theorem ne_of_ltBefore {a b : LtTime} (hab : ltBefore a b = true) : a ≠ b := by
  rintro rfl
  simp [ltBefore, ltAfter, before] at hab

theorem Increasing.eq_of_time (hinc : Increasing releaseTime hs) {g h : TaskId} (hg : g ∈ hs)
    (hh : h ∈ hs) (heq : releaseTime g = releaseTime h) : g = h := by
  have hnod : (hs.map releaseTime).Nodup :=
    pairwise_map.mpr (hinc.imp fun hlt => ne_of_ltBefore hlt)
  exact inj_on_of_nodup_map hnod hg hh heq

/-- What the loop finds: the heap for `time`, or the place for a new one. -/
theorem getReleaseHeap_spec (own : Option TaskId) (hwi : ∀ h ∈ hs, InWindow base (releaseTime h))
    (hti : InWindow base time) (hinc : Increasing releaseTime hs) :
    (∃ rh ∈ hs, releaseTime rh = time ∧ getReleaseHeap releaseTime time own hs = (some rh, hs)) ∨
      ∃ before later, hs = before ++ later ∧
        getReleaseHeap releaseTime time own hs = (own, before ++ (own.toList ++ later)) ∧
        (∀ g ∈ before, ltBefore (releaseTime g) time = true) ∧
        ∀ g ∈ later, ltBefore time (releaseTime g) = true := by
  induction hs with
  | nil =>
    refine .inr ⟨[], [], rfl, ?_, ?_, ?_⟩
    · simp [getReleaseHeap]
    · intro g hg
      cases hg
    intro g hg
    cases hg
  | cons rh rest ih =>
    have hrh : InWindow base (releaseTime rh) := hwi rh mem_cons_self
    have hre : ∀ h ∈ rest, InWindow base (releaseTime h) := fun h hh =>
      hwi h (mem_cons_of_mem rh hh)
    obtain ⟨hfi, hinc'⟩ := pairwise_cons.mp hinc
    by_cases heq : time = releaseTime rh
    · refine .inl ⟨rh, mem_cons_self, heq.symm, ?_⟩
      simp [getReleaseHeap, heq]
    by_cases hla : ltBefore time (releaseTime rh) = true
    · refine .inr ⟨[], rh :: rest, rfl, ?_, ?_, ?_⟩
      · simp [getReleaseHeap, heq, hla]
      · intro g hg
        cases hg
      intro g hg
      rcases mem_cons.mp hg with rfl | hg
      · exact hla
      exact ltBefore_trans hti hrh (hre g hg) hla (hfi g hg)
    have hbe := ltBefore_of_not hti hrh heq hla
    rcases ih hre hinc' with ⟨g, hg, htmg, hfo⟩ |
      ⟨before, later, hsp, hfo, hbef, haft⟩
    · refine .inl ⟨g, mem_cons_of_mem rh hg, htmg, ?_⟩
      simp [getReleaseHeap, heq, hla, hfo]
    refine .inr ⟨rh :: before, later, by rw [hsp]; rfl, ?_, ?_, haft⟩
    · simp [getReleaseHeap, heq, hla, hfo]
    intro g hg
    rcases mem_cons.mp hg with rfl | hg
    · exact hbe
    exact hbef g hg

end

namespace State

/-! ### The invariant -/

def Queued (st : State) (h : TaskId) : Prop := ∃ s, h ∈ st.slot s

structure Inv (tickPeriod : Nat) (base : LtTime) (st : State) : Prop where
  sound : Sound st.held (fun t => st.taken t ≠ st.added t)
  pace : ∀ t, st.added t = st.taken t ∨ st.added t = st.taken t + 1
  /-- a task that has been added and not merged is in hand or in a heap -/
  pending : ∀ t, (t ∈ st.held .hand ∨ ∃ h, t ∈ st.held (.heap h)) → st.added t = st.merged t + 1
  settled : ∀ t, t ∉ st.held .hand → (∀ h, t ∉ st.held (.heap h)) → st.added t = st.merged t
  /-- a queued heap is in the slot of its time and holds its owner, who arms it -/
  queued : ∀ {s h}, h ∈ st.slot s → s = RtDomain.time2slot tickPeriod (st.timeOf h) ∧
    h ∈ st.held (.heap h) ∧ ((st.relHeap h).timer = .armed ∨ (st.relHeap h).timer = .fired ∨
      (st.relHeap h).timer = .inactive ∧ st.adder = .arming h h)
  started : ∀ {h}, (st.relHeap h).timer = .armed ∨ (st.relHeap h).timer = .fired → st.Queued h
  owner : ∀ {h}, (st.relHeap h).timer = .unlinked → h ∈ st.held (.heap h)
  /-- the tasks of a heap wait for its release time -/
  content : ∀ {h u}, u ∈ st.held (.heap h) → st.release u = st.timeOf h ∧
    InWindow base (st.timeOf h) ∧ (st.Queued h ∨ (st.relHeap h).timer = .unlinked)
  increasing : ∀ s, Increasing st.timeOf (st.slot s)
  prepared : ∀ {t}, st.adder = .prepared t → (st.relHeap t).timer = .inactive
  arming : ∀ {t}, st.adder = .arming t t → (st.relHeap t).timer = .inactive ∧ st.Queued t
  window : ∀ {t}, t ∈ st.held .hand → InWindow base (st.release t)

section

variable {tickPeriod : Nat} {base now : LtTime} {st st' : State} {t h : TaskId}
  {order : TaskId → TaskId → Bool}

variable {s : Nat} {rh : RelHeap}

theorem held_hand_eq (ht : t ∈ st.held .hand) : st.held .hand = {t} := by
  cases hadd : st.adder <;> simp_all [held]

section

variable (hI : Inv tickPeriod base st)
include hI

theorem Inv.hand_apart (ht : t ∈ st.held .hand) (h : TaskId) : t ∉ st.held (.heap h) := by
  intro hhea
  cases hI.sound.unique ht hhea

theorem Inv.own_unused (ht : t ∈ st.held .hand) :
    ¬st.Queued t ∧ (st.relHeap t).timer ≠ .unlinked := by
  constructor
  · rintro ⟨s, hs⟩
    exact hI.hand_apart ht t (hI.queued hs).2.1
  intro hun
  exact hI.hand_apart ht t (hI.owner hun)

theorem Inv.timer_of_queued {P : Prop} (hh : h ∈ st.slot s) (hadd : st.adder ≠ .arming h h) :
    (st.relHeap h).timer = .armed ∨ (st.relHeap h).timer = .fired ∨ P := by
  rcases (hI.queued hh).2.2 with hrmd | hfir | ⟨-, harm⟩
  · exact .inl hrmd
  · exact .inr (.inl hfir)
  exact absurd harm hadd

theorem Inv.ne_of_queued {g : TaskId} (hg : g ∈ st.slot s)
    (hh : (st.relHeap h).timer = .unlinked ∨ (st.relHeap h).timer = .merged) : g ≠ h := by
  rintro rfl
  have htim := (hI.queued hg).2.2
  rcases hh with hh | hh <;> simp [hh] at htim

theorem Inv.ne_of_prepared {u : TaskId}
    (hu : st.adder = .prepared u) (hh : (st.relHeap h).timer ≠ .inactive) : u ≠ h := by
  rintro rfl
  exact hh (hI.prepared hu)

theorem Inv.ne_of_arming {u : TaskId} (hu : st.adder = .arming u u)
    (hh : (st.relHeap h).timer ≠ .inactive) : u ≠ h := by
  rintro rfl
  exact hh (hI.arming hu).1

theorem Inv.own_empty (ht : t ∈ st.held .hand) : st.held (.heap t) = 0 := by
  obtain ⟨hnq, hnu⟩ := hI.own_unused ht
  apply Multiset.eq_zero_of_forall_notMem
  intro u hu
  rcases (hI.content hu).2.2 with hq | hun
  · exact hnq hq
  exact hnu hun

end

/-! ### Changes of a heap -/

@[simp] theorem relHeap_setHeap_self (rh : RelHeap) : (st.setHeap h rh).relHeap h = rh :=
  update_self _ _ _

theorem relHeap_setHeap_of_ne {g : TaskId} (hg : g ≠ h) (rh : RelHeap) :
    (st.setHeap h rh).relHeap g = st.relHeap g := update_of_ne hg _ _

theorem timer_setHeap (rh : RelHeap) (g : TaskId) :
    ((st.setHeap h rh).relHeap g).timer = if g = h then rh.timer else (st.relHeap g).timer := by
  by_cases hg : g = h
  · subst hg
    simp
  rw [relHeap_setHeap_of_ne hg, if_neg hg]

theorem timer_setHeap_eq (hrh : rh.timer = (st.relHeap h).timer) (g : TaskId) :
    ((st.setHeap h rh).relHeap g).timer = (st.relHeap g).timer := by
  rw [timer_setHeap]
  split
  · rename_i hg
    rw [hg, hrh]
  rfl

theorem timer_insert (rh : TaskId) (a : Adder) (g : TaskId) :
    (((st.insert order rh t).setAdder a).relHeap g).timer = (st.relHeap g).timer := by
  apply timer_setHeap_eq
  rfl

theorem timeOf_setHeap (hrh : rh.releaseTime = st.timeOf h) :
    (st.setHeap h rh).timeOf = st.timeOf := by
  funext g
  by_cases hg : g = h
  · subst hg
    rw [timeOf, relHeap_setHeap_self, hrh]
  rw [timeOf, relHeap_setHeap_of_ne hg]
  rfl

theorem held_setHeap (hrh : rh.heap.elems = st.held (.heap h)) (p : Place) :
    (st.setHeap h rh).held p = st.held p := by
  cases p with
  | hand => rfl
  | ready => rfl
  | heap g =>
    by_cases hg : g = h
    · subst hg
      rw [held, relHeap_setHeap_self, hrh]
    rw [held, relHeap_setHeap_of_ne hg]
    rfl

theorem timer_setTimer (timer : TimerState) (g : TaskId) :
    ((st.setTimer h timer).relHeap g).timer =
      if g = h then timer else (st.relHeap g).timer := timer_setHeap _ g

theorem held_setTimer (timer : TimerState) (p : Place) :
    (st.setTimer h timer).held p = st.held p := by
  apply held_setHeap
  rfl

theorem timeOf_setTimer (timer : TimerState) : (st.setTimer h timer).timeOf = st.timeOf :=
  timeOf_setHeap rfl

section

variable (hI : Inv tickPeriod base st)
include hI

theorem Inv.retime (hh : ∀ p, st'.held p = st.held p)
    (hti : st'.timeOf = st.timeOf) (hre : st'.release = st.release)
    (had : st'.added = st.added) (hme : st'.merged = st.merged) (hta : st'.taken = st.taken)
    (hqu : ∀ {s g}, g ∈ st'.slot s → g ∈ st.slot s ∧ ((st'.relHeap g).timer = .armed ∨
      (st'.relHeap g).timer = .fired ∨ (st'.relHeap g).timer = .inactive ∧ st'.adder = .arming g g))
    (hsd : ∀ {g}, (st'.relHeap g).timer = .armed ∨ (st'.relHeap g).timer = .fired →
      st'.Queued g) (hwnr : ∀ {g}, (st'.relHeap g).timer = .unlinked → g ∈ st.held (.heap g))
    (hcon : ∀ {g}, st.Queued g ∨ (st.relHeap g).timer = .unlinked →
      st'.Queued g ∨ (st'.relHeap g).timer = .unlinked)
    (hsub : ∀ s, (st'.slot s).Sublist (st.slot s))
    (hpre : ∀ {u}, st'.adder = .prepared u → (st'.relHeap u).timer = .inactive)
    (harm : ∀ {u}, st'.adder = .arming u u →
      (st'.relHeap u).timer = .inactive ∧ st'.Queued u) : Inv tickPeriod base st' := by
  constructor
  · apply hI.sound.congr hh
    intro u
    rw [had, hta]
  · rw [had, hta]
    exact hI.pace
  · intro u hu
    simp only [hh] at hu
    rw [had, hme]
    exact hI.pending u hu
  · intro u hha hhe
    simp only [hh] at hha hhe
    rw [had, hme]
    exact hI.settled u hha hhe
  · intro s g hg
    obtain ⟨hold, htmr⟩ := hqu hg
    obtain ⟨hs, hown, -⟩ := hI.queued hold
    rw [hti, hh]
    exact ⟨hs, hown, htmr⟩
  · exact hsd
  · intro g hg
    rw [hh]
    exact hwnr hg
  · intro g u hu
    rw [hh] at hu
    obtain ⟨hrel, hwin, hwhe⟩ := hI.content hu
    rw [hre, hti]
    exact ⟨hrel, hwin, hcon hwhe⟩
  · intro s
    rw [hti]
    exact (hI.increasing s).sublist (hsub s)
  · exact hpre
  · exact harm
  · intro u hu
    rw [hh] at hu
    rw [hre]
    exact hI.window hu

/-! ### Steps of a timer -/

theorem Inv.fire (hh : (st.relHeap h).timer = .armed) :
    Inv tickPeriod base (st.setTimer h .fired) := by
  have hac : (st.relHeap h).timer ≠ .inactive := by
    rw [hh]
    intro hc
    cases hc
  apply hI.retime (held_setTimer _) (timeOf_setTimer _) rfl rfl rfl rfl
  · intro s g hg
    refine ⟨hg, ?_⟩
    rw [timer_setTimer]
    split
    · exact .inr (.inl rfl)
    exact (hI.queued hg).2.2
  · intro g hg
    rw [timer_setTimer] at hg
    split at hg
    · rename_i hgh
      rw [hgh]
      exact hI.started (.inl hh)
    exact hI.started hg
  · intro g hg
    rw [timer_setTimer] at hg
    split at hg
    · cases hg
    exact hI.owner hg
  · intro g hg
    rw [timer_setTimer]
    rcases hg with hq | hun
    · exact .inl hq
    right
    split
    · rename_i hgh
      rw [hgh, hh] at hun
      cases hun
    exact hun
  · exact fun s => List.Sublist.refl _
  · intro u hu
    rw [timer_setTimer, if_neg (hI.ne_of_prepared hu hac)]
    exact hI.prepared hu
  · intro u hu
    rw [timer_setTimer, if_neg (hI.ne_of_arming hu hac)]
    exact hI.arming hu

theorem Inv.listDel (hh : (st.relHeap h).timer = .fired) : Inv tickPeriod base (st.listDel h) := by
  have hac : (st.relHeap h).timer ≠ .inactive := by
    rw [hh]
    intro hc
    cases hc
  have hnod : ∀ s, (st.slot s).Nodup := by
    intro s
    refine (hI.increasing s).imp ?_
    intro g k hlt heq
    exact ne_of_ltBefore hlt (congrArg st.timeOf heq)
  have hm : ∀ {s g}, g ∈ (st.listDel h).slot s ↔ g ≠ h ∧ g ∈ st.slot s := by
    intro s g
    exact (hnod s).mem_erase_iff
  have hhel : ∀ p, (st.listDel h).held p = st.held p := held_setTimer _
  have htim : (st.listDel h).timeOf = st.timeOf := timeOf_setTimer _
  apply hI.retime hhel htim rfl rfl rfl rfl
  · intro s g hg
    obtain ⟨hne, hg⟩ := hm.mp hg
    refine ⟨hg, ?_⟩
    unfold State.listDel
    rw [timer_setTimer, if_neg hne]
    exact (hI.queued hg).2.2
  · intro g hg
    unfold State.listDel at hg
    rw [timer_setTimer] at hg
    split at hg
    · simp at hg
    rename_i hne
    obtain ⟨s, hs⟩ := hI.started hg
    exact ⟨s, hm.mpr ⟨hne, hs⟩⟩
  · intro g hg
    unfold State.listDel at hg
    rw [timer_setTimer] at hg
    split at hg
    · rename_i hgh
      rw [hgh]
      obtain ⟨s, hs⟩ := hI.started (.inr hh)
      exact (hI.queued hs).2.1
    exact hI.owner hg
  · intro g hg
    unfold State.listDel
    rw [timer_setTimer]
    by_cases hgh : g = h
    · exact .inr (if_pos hgh)
    rw [if_neg hgh]
    rcases hg with ⟨s, hs⟩ | hun
    · exact .inl ⟨s, hm.mpr ⟨hgh, hs⟩⟩
    exact .inr hun
  · exact fun s => erase_sublist
  · intro u hu
    unfold State.listDel
    rw [timer_setTimer, if_neg (hI.ne_of_prepared hu hac)]
    exact hI.prepared hu
  · intro u hu
    have huh := hI.ne_of_arming hu hac
    obtain ⟨hin, s, hs⟩ := hI.arming hu
    refine ⟨?_, s, hm.mpr ⟨huh, hs⟩⟩
    unfold State.listDel
    rw [timer_setTimer, if_neg huh]
    exact hin

theorem Inv.return (hh : (st.relHeap h).timer = .merged) :
    Inv tickPeriod base (st.setTimer h .inactive) := by
  apply hI.retime (held_setTimer _) (timeOf_setTimer _) rfl rfl rfl rfl
  · intro s g hg
    refine ⟨hg, ?_⟩
    rw [timer_setTimer, if_neg (hI.ne_of_queued hg (.inr hh))]
    exact (hI.queued hg).2.2
  · intro g hg
    rw [timer_setTimer] at hg
    split at hg
    · simp at hg
    exact hI.started hg
  · intro g hg
    rw [timer_setTimer] at hg
    split at hg
    · cases hg
    exact hI.owner hg
  · intro g hg
    rw [timer_setTimer]
    rcases hg with hq | hun
    · exact .inl hq
    right
    split
    · rename_i hgh
      rw [hgh, hh] at hun
      cases hun
    exact hun
  · exact fun s => List.Sublist.refl _
  · intro u hu
    rw [timer_setTimer]
    split
    · rfl
    exact hI.prepared hu
  · intro u hu
    rw [timer_setTimer]
    obtain ⟨hin, hq⟩ := hI.arming hu
    refine ⟨?_, hq⟩
    split
    · rfl
    exact hin

/-! ### Steps of an insertion -/

theorem Inv.addRelease {time : LtTime} (hid : st.adder = .idle)
    (hfr : ∀ p, t ∉ st.held p) (htim : InWindow base time) :
    Inv tickPeriod base (st.addRelease t time) := by
  have hha : st.held .hand = 0 := by simp [held, hid]
  have hn : st.taken t = st.added t := by
    by_contra hne
    obtain ⟨p, hp⟩ := (hI.sound.live_iff t).mpr hne
    exact hfr p hp
  have ho : ∀ {u}, u ≠ t → (st.addRelease t time).added u = st.added u := fun hu =>
    update_of_ne hu _ _
  have hse : (st.addRelease t time).added t = st.added t + 1 := update_self _ _ _
  constructor
  · apply hI.sound.enter (b := .hand) (fun hne => hne hn)
    · rw [hha]
      rfl
    · intro p hp
      cases p with
      | hand => exact absurd rfl hp
      | heap h => rfl
      | ready => rfl
    intro u
    by_cases hu : u = t
    · subst hu
      rw [hse]
      have htak : (st.addRelease u time).taken u = st.taken u := rfl
      rw [htak, hn]
      simp
    rw [ho hu]
    exact ⟨.inr, fun h => h.resolve_left hu⟩
  · intro u
    by_cases hu : u = t
    · subst hu
      rw [hse]
      exact .inr (congrArg (· + 1) hn.symm)
    rw [ho hu]
    exact hI.pace u
  · intro u hu
    by_cases hut : u = t
    · subst hut
      rw [hse, hI.settled u (hfr .hand) (fun h => hfr (.heap h))]
      rfl
    rw [ho hut]
    rcases hu with hu | hu
    · exact absurd (Multiset.mem_singleton.mp hu) hut
    exact hI.pending u (.inr hu)
  · intro u hnh hnhe
    have hut : u ≠ t := by
      rintro rfl
      exact hnh (Multiset.mem_singleton_self u)
    rw [ho hut]
    refine hI.settled u ?_ hnhe
    rw [hha]
    exact Multiset.notMem_zero u
  · intro s h hh
    obtain ⟨hs, hown, -⟩ := hI.queued hh
    exact ⟨hs, hown, hI.timer_of_queued hh (by simp [hid])⟩
  · exact hI.started
  · exact hI.owner
  · intro h u hu
    have hut : u ≠ t := by
      rintro rfl
      exact hfr (.heap h) hu
    obtain ⟨hre, hwin, hwhe⟩ := hI.content hu
    exact ⟨(update_of_ne hut _ _).trans hre, hwin, hwhe⟩
  · exact hI.increasing
  · intro u hu
    cases hu
  · intro u hu
    cases hu
  · intro u hu
    have hut : u = t := Multiset.mem_singleton.mp hu
    subst hut
    have hre : (st.addRelease u time).release u = time := update_self _ _ _
    rw [hre]
    exact htim

theorem Inv.dropped (hlo : st.adder = .looking t) :
    Inv tickPeriod base (st.setAdder (.dropped t)) := by
  have hh : ∀ p, (st.setAdder (.dropped t)).held p = st.held p := by
    intro p
    cases p with
    | hand => simp [held, setAdder, hlo]
    | heap h => rfl
    | ready => rfl
  apply hI.retime hh rfl rfl rfl rfl rfl
  · intro s g hg
    exact ⟨hg, hI.timer_of_queued hg (by simp [hlo])⟩
  · exact hI.started
  · exact hI.owner
  · exact id
  · exact fun s => List.Sublist.refl _
  · intro u hu
    cases hu
  · intro u hu
    cases hu

/-- The timer of the own heap is not armed, so `reinit_release_heap` is not stopped by its
    `BUG_ON`. -/
theorem Inv.own_not_armed (ht : t ∈ st.held .hand) :
    (st.relHeap t).timer ≠ .armed ∧ (st.relHeap t).timer ≠ .fired := by
  constructor
  · intro harm
    exact (hI.own_unused ht).1 (hI.started (.inl harm))
  intro hfir
  exact (hI.own_unused ht).1 (hI.started (.inr hfir))

theorem Inv.reinit (hdr : st.adder = .dropped t)
    (hre : st.reinit t = some st') : Inv tickPeriod base st' := by
  have hhan : t ∈ st.held .hand := by simp [held, hdr]
  unfold State.reinit at hre
  split at hre
  · rename_i hin
    cases hre
    have hem := hI.own_empty hhan
    have hh : ∀ p, ((st.setHeap t { st.relHeap t with heap := Heap.empty }).setAdder
        (.prepared t)).held p = st.held p := by
      intro p
      cases p with
      | hand => simp [held, setAdder, hdr]
      | heap h =>
        refine held_setHeap ?_ (.heap h)
        rw [hem]
        rfl
      | ready => rfl
    have htm : ∀ g, (((st.setHeap t { st.relHeap t with heap := Heap.empty }).setAdder
        (.prepared t)).relHeap g).timer = (st.relHeap g).timer := by
      exact timer_setHeap_eq rfl
    have htim : ((st.setHeap t { st.relHeap t with heap := Heap.empty }).setAdder
        (.prepared t)).timeOf = st.timeOf := timeOf_setHeap rfl
    apply hI.retime hh htim rfl rfl rfl rfl
    · intro s g hg
      refine ⟨hg, ?_⟩
      rw [htm]
      exact hI.timer_of_queued hg (by simp [hdr])
    · intro g hg
      rw [htm] at hg
      exact hI.started hg
    · intro g hg
      rw [htm] at hg
      exact hI.owner hg
    · intro g hg
      rw [htm]
      exact hg
    · exact fun s => List.Sublist.refl _
    · intro u hu
      rw [htm]
      cases hu
      exact hin
    · intro u hu
      cases hu
  cases hre

theorem Inv.arm {rh : TaskId} (har : st.adder = .arming t rh) :
    Inv tickPeriod base (st.arm t rh) := by
  have hha : st.held .hand = 0 := by simp [held, har]
  unfold State.arm
  split
  · rename_i hrh
    subst hrh
    obtain ⟨hin, hq⟩ := hI.arming har
    have hh : ∀ p, ((st.setTimer rh .armed).setAdder .idle).held p = st.held p := by
      intro p
      cases p with
      | hand =>
        rw [hha]
        rfl
      | heap h => exact held_setTimer .armed (.heap h)
      | ready => rfl
    have htim : ((st.setTimer rh .armed).setAdder .idle).timeOf = st.timeOf := timeOf_setTimer _
    have htm : ∀ g, (((st.setTimer rh .armed).setAdder .idle).relHeap g).timer =
        if g = rh then .armed else (st.relHeap g).timer := timer_setTimer .armed
    apply hI.retime hh htim rfl rfl rfl rfl
    · intro s g hg
      refine ⟨hg, ?_⟩
      rw [htm]
      split
      · exact .inl rfl
      rename_i hne
      refine hI.timer_of_queued hg fun had => ?_
      cases har.symm.trans had
      exact hne rfl
    · intro g hg
      rw [htm] at hg
      split at hg
      · rename_i hgh
        rw [hgh]
        exact hq
      exact hI.started hg
    · intro g hg
      rw [htm] at hg
      split at hg
      · cases hg
      exact hI.owner hg
    · intro g hg
      rw [htm]
      rcases hg with hqg | hun
      · exact .inl hqg
      right
      split
      · rename_i hgh
        rw [hgh, hin] at hun
        cases hun
      exact hun
    · exact fun s => List.Sublist.refl _
    · intro u hu
      cases hu
    · intro u hu
      cases hu
  rename_i hrh
  have hh : ∀ p, (st.setAdder .idle).held p = st.held p := by
    intro p
    cases p with
    | hand =>
      rw [hha]
      rfl
    | heap h => rfl
    | ready => rfl
  apply hI.retime hh rfl rfl rfl rfl rfl
  · intro s g hg
    refine ⟨hg, hI.timer_of_queued hg fun had => ?_⟩
    cases har.symm.trans had
    exact hrh rfl
  · exact hI.started
  · exact hI.owner
  · exact id
  · exact fun s => List.Sublist.refl _
  · intro u hu
    cases hu
  · intro u hu
    cases hu

/-- The task in hand goes into heap `rh`: a queued one, or its own, which is then added to
    the queue. -/
theorem Inv.place {rh : TaskId} (hha : t ∈ st.held .hand)
    (hdd : st'.adder = .arming t rh) (hhe : st'.held (.heap rh) = t ::ₘ st.held (.heap rh))
    (ho : ∀ {g}, g ≠ rh → st'.held (.heap g) = st.held (.heap g))
    (hrd : st'.held .ready = st.held .ready) (hre : st'.release = st.release)
    (had : st'.added = st.added) (hme : st'.merged = st.merged)
    (hta : st'.taken = st.taken) (htr : ∀ g, (st'.relHeap g).timer = (st.relHeap g).timer)
    (htm : ∀ {g u}, u ∈ st.held (.heap g) → st'.timeOf g = st.timeOf g)
    (hti : st'.timeOf rh = st.release t)
    (hsl : ∀ {s g}, g ∈ st'.slot s ↔ g = rh ∧ s = st.slotOf tickPeriod t ∨ g ∈ st.slot s)
    (hrh : st.Queued rh ∨ rh = t ∧ (st.relHeap t).timer = .inactive)
    (hinc : ∀ s, Increasing st'.timeOf (st'.slot s)) : Inv tickPeriod base st' := by
  have hon : st.held .hand = {t} := held_hand_eq hha
  have hhand' : st'.held .hand = 0 := by simp [held, hdd]
  have hm : ∀ {g u}, u ∈ st'.held (.heap g) ↔ u = t ∧ g = rh ∨ u ∈ st.held (.heap g) := by
    intro g u
    by_cases hg : g = rh
    · subst hg
      rw [hhe, Multiset.mem_cons]
      simp
    rw [ho hg]
    simp [hg]
  have hqr : st'.Queued rh := ⟨_, hsl.mpr (.inl ⟨rfl, rfl⟩)⟩
  have hqu : ∀ {g}, st.Queued g → st'.Queued g := by
    rintro g ⟨s, hs⟩
    exact ⟨s, hsl.mpr (.inr hs)⟩
  have hidl : ∀ {g}, st.adder ≠ .arming g g := by
    intro g hg
    simp [held, hg] at hha
  have hwa : ∀ {s g}, g ∈ st.slot s → s = RtDomain.time2slot tickPeriod (st'.timeOf g) ∧
      g ∈ st'.held (.heap g) ∧ ((st'.relHeap g).timer = .armed ∨ (st'.relHeap g).timer = .fired ∨
          (st'.relHeap g).timer = .inactive ∧ st'.adder = .arming g g) := by
    intro s g hg
    obtain ⟨hs, how, -⟩ := hI.queued hg
    rw [htr, htm how]
    exact ⟨hs, hm.mpr (.inr how), hI.timer_of_queued hg hidl⟩
  constructor
  · apply hI.sound.move (a := .hand) (b := .heap rh) (t := t) (by simp)
    · rw [hon, hhand']
      rfl
    · exact hhe
    · intro p hp hpr
      cases p with
      | hand => exact absurd rfl hp
      | heap g =>
        apply ho
        rintro rfl
        exact hpr rfl
      | ready => exact hrd
    · intro u
      rw [had, hta]
  · rw [had, hta]
    exact hI.pace
  · rw [had, hme]
    rintro u (hu | ⟨g, hg⟩)
    · rw [hhand'] at hu
      exact absurd hu (Multiset.notMem_zero u)
    rcases hm.mp hg with ⟨rfl, -⟩ | hg
    · exact hI.pending u (.inl hha)
    exact hI.pending u (.inr ⟨g, hg⟩)
  · rw [had, hme]
    intro u _ hu
    apply hI.settled u
    · rw [hon, Multiset.mem_singleton]
      rintro rfl
      exact hu rh (hm.mpr (.inl ⟨rfl, rfl⟩))
    exact fun g hg => hu g (hm.mpr (.inr hg))
  · intro s g hg
    rcases hsl.mp hg with ⟨rfl, rfl⟩ | hg
    · rcases hrh with ⟨s, hq⟩ | ⟨rfl, hin⟩
      · obtain ⟨-, how, htir⟩ := hwa hq
        rw [hti]
        exact ⟨rfl, how, htir⟩
      rw [hti, htr]
      exact ⟨rfl, hm.mpr (.inl ⟨rfl, rfl⟩), .inr (.inr ⟨hin, hdd⟩)⟩
    exact hwa hg
  · intro g hg
    rw [htr] at hg
    exact hqu (hI.started hg)
  · intro g hg
    rw [htr] at hg
    exact hm.mpr (.inr (hI.owner hg))
  · intro g u hu
    rw [hre, htr]
    rcases hm.mp hu with ⟨rfl, rfl⟩ | hu
    · rw [hti]
      exact ⟨rfl, hI.window hha, .inl hqr⟩
    obtain ⟨hr, hwin, hwhe⟩ := hI.content hu
    rw [htm hu]
    exact ⟨hr, hwin, hwhe.imp hqu id⟩
  · exact hinc
  · intro u hu
    cases hdd.symm.trans hu
  · intro u hu
    cases hdd.symm.trans hu
    refine ⟨?_, hqr⟩
    rcases hrh with hq | ⟨-, hin⟩
    · exact absurd hq (hI.own_unused hha).1
    rw [htr]
    exact hin
  · intro u hu
    rw [hhand'] at hu
    exact absurd hu (Multiset.notMem_zero u)

theorem Inv.insert {rh : TaskId} (hhan : t ∈ st.held .hand)
    (hq : st.Queued rh) (hti : st.timeOf rh = st.release t) :
    Inv tickPeriod base ((st.insert order rh t).setAdder (.arming t rh)) := by
  have htm : ((st.insert order rh t).setAdder (.arming t rh)).timeOf = st.timeOf :=
    timeOf_setHeap rfl
  apply hI.place hhan rfl
  · simp only [held, setAdder, State.insert, relHeap_setHeap_self]
    exact Heap.elems_insert order t _
  · exact fun hg => congrArg (fun r : RelHeap => r.heap.elems) (relHeap_setHeap_of_ne hg _)
  · rfl
  · rfl
  · rfl
  · rfl
  · rfl
  · exact timer_insert rh _
  · intro g u _
    rw [htm]
  · rw [htm]
    exact hti
  · intro s g
    refine ⟨.inr, ?_⟩
    rintro (⟨rfl, rfl⟩ | hg)
    · obtain ⟨s, hs⟩ := hq
      have hsl := (hI.queued hs).1
      rw [hti] at hsl
      subst hsl
      exact hs
    exact hg
  · exact .inl hq
  · intro s
    rw [htm]
    exact hI.increasing s

theorem Inv.window_slot : ∀ g ∈ st.slot s, InWindow base (st.timeOf g) := by
  intro g hg
  exact (hI.content (hI.queued hg).2.1).2.1

theorem Inv.findHeap (hlo : st.adder = .looking t) :
    Inv tickPeriod base (st.findHeap order tickPeriod t) := by
  have hha : t ∈ st.held .hand := by simp [held, hlo]
  unfold State.findHeap
  rcases getReleaseHeap_spec none hI.window_slot (hI.window hha)
    (hI.increasing (st.slotOf tickPeriod t)) with
    ⟨rh, hrh, htim, hfo⟩ | ⟨before, later, -, hfo, -, -⟩
  · rw [hfo]
    exact hI.insert hha ⟨_, hrh⟩ htim
  rw [hfo]
  exact hI.dropped hlo

/-- No heap for the release of the task is queued, so its own heap is added to the queue. -/
theorem Inv.useOwn {before later : List TaskId}
    (hpr : st.adder = .prepared t) (hsp : st.slot (st.slotOf tickPeriod t) = before ++ later)
    (hbe : ∀ g ∈ before, ltBefore (st.timeOf g) (st.release t) = true)
    (hlat : ∀ g ∈ later, ltBefore (st.release t) (st.timeOf g) = true) :
    Inv tickPeriod base ((((st.setHeap t { st.relHeap t with
      releaseTime := st.release t }).setSlot (st.slotOf tickPeriod t)
        (before ++ t :: later)).insert order t t).setAdder (.arming t t)) := by
  generalize hst' : (((st.setHeap t { st.relHeap t with
    releaseTime := st.release t }).setSlot (st.slotOf tickPeriod t)
      (before ++ t :: later)).insert order t t).setAdder (.arming t t) = st'
  have hha : t ∈ st.held .hand := by simp [held, hpr]
  have hne : ∀ {s g}, g ∈ st.slot s → g ≠ t := by
    rintro s g hg rfl
    exact (hI.own_unused hha).1 ⟨s, hg⟩
  have hre : ∀ {g}, g ≠ t → st'.relHeap g = st.relHeap g := by
    intro g hg
    subst hst'
    exact (relHeap_setHeap_of_ne hg _).trans (relHeap_setHeap_of_ne hg _)
  have hti : ∀ {g}, g ≠ t → st'.timeOf g = st.timeOf g := fun hg =>
    congrArg RelHeap.releaseTime (hre hg)
  have htm : st'.timeOf t = st.release t := by
    subst hst'
    simp [timeOf, setAdder, State.insert, setSlot]
  have hso : st'.slot (st.slotOf tickPeriod t) = before ++ t :: later := by
    subst hst'
    exact update_self _ _ _
  have hsl : ∀ {s}, s ≠ st.slotOf tickPeriod t → st'.slot s = st.slot s := by
    intro s hs
    subst hst'
    exact update_of_ne hs _ _
  have hold : ∀ {hs : List TaskId}, (∀ g ∈ hs, g ≠ t) → Increasing st.timeOf hs →
      Increasing st'.timeOf hs := by
    intro hs hnt hin
    refine List.Pairwise.imp_of_mem ?_ hin
    intro g k hg hk hlt
    rw [hti (hnt g hg), hti (hnt k hk)]
    exact hlt
  have hadd : st'.adder = .arming t t := by
    subst hst'
    rfl
  apply hI.place hha hadd
  · subst hst'
    simp only [held, setAdder, State.insert, relHeap_setHeap_self, setSlot]
    exact Heap.elems_insert order t _
  · exact fun hg => congrArg (fun r : RelHeap => r.heap.elems) (hre hg)
  iterate 5
    subst hst'
    rfl
  · intro g
    subst hst'
    rw [timer_insert]
    apply timer_setHeap_eq
    rfl
  · intro g u hu
    apply hti
    rintro rfl
    rw [hI.own_empty hha] at hu
    exact absurd hu (Multiset.notMem_zero u)
  · exact htm
  · intro s g
    by_cases hs : s = st.slotOf tickPeriod t
    · rw [hs, hso, hsp]
      simp only [mem_append, mem_cons]
      tauto
    rw [hsl hs]
    simp [hs]
  · exact .inr ⟨rfl, hI.prepared hpr⟩
  · intro s
    by_cases hs : s = st.slotOf tickPeriod t
    · have hin := hI.increasing (st.slotOf tickPeriod t)
      have hnt : ∀ g ∈ before ++ later, g ≠ t := fun g hg => hne (hsp ▸ hg)
      rw [hsp] at hin
      obtain ⟨hib, hil, hbl⟩ := pairwise_append.mp (hold hnt hin)
      rw [hs, hso]
      refine pairwise_append.mpr ⟨hib, pairwise_cons.mpr ⟨?_, hil⟩, ?_⟩
      · intro g hg
        rw [htm, hti (hnt g (mem_append.mpr (.inr hg)))]
        exact hlat g hg
      intro g hg k hk
      rcases mem_cons.mp hk with rfl | hk
      · rw [htm, hti (hnt g (mem_append.mpr (.inl hg)))]
        exact hbe g hg
      exact hbl g hg k hk
    rw [hsl hs]
    exact hold (fun g hg => hne hg) (hI.increasing s)

theorem Inv.useHeap (hpr : st.adder = .prepared t)
    (hus : st.useHeap order tickPeriod t = some st') : Inv tickPeriod base st' := by
  have hha : t ∈ st.held .hand := by simp [held, hpr]
  unfold State.useHeap at hus
  dsimp only at hus
  rcases getReleaseHeap_spec (some t) hI.window_slot (hI.window hha)
    (hI.increasing (st.slotOf tickPeriod t)) with
    ⟨rh, hrh, htim, hfo⟩ | ⟨before, later, hsp, hfo, hbe, hlat⟩
  · have hne : rh ≠ t := by
      rintro rfl
      exact (hI.own_unused hha).1 ⟨_, hrh⟩
    rw [hfo] at hus
    simp only [Option.map_some, hne, if_false, Option.some.injEq] at hus
    subst hus
    exact hI.insert hha ⟨_, hrh⟩ htim
  rw [hfo] at hus
  simp only [Option.map_some, if_true, Option.some.injEq, Option.toList_some,
    singleton_append] at hus
  subst hus
  exact hI.useOwn hpr hsp hbe hlat

end

end

end State

end Litmus.ReleaseQueue
