import Mathlib.Algebra.Order.BigOperators.Group.List
import Mathlib.Dynamics.PeriodicPts.Defs
import Mathlib.Data.List.FinRange
import Litmus.NpsfConfig
import Litmus.Runs

/-!
# Deleting the servers

`cleanup_npsf` goes through the reserves of all CPUs.  At the first reserve of a server it walks
along the chain and takes the server away from the others, so that the server is freed once.
The reserves are freed but not taken off the lists, and the list heads are unlinked at the end.
-/

namespace Litmus.Npsf

open NpsfConfig Cleanup Function List

/-- The reserves of all CPUs, in the order of `cleanup_npsf`. -/
def NpsfConfig.allReserves {n : Nat} (cfg : NpsfConfig n) : List ReserveId :=
  ((List.finRange n).map fun c => (cfg.entry c).npsfReserves).flatten

/-- `next_npsf` -/
def NpsfConfig.nextOf {n : Nat} (cfg : NpsfConfig n) (r : ReserveId) : ReserveId :=
  (cfg.reserve r).nextNpsf.getD r

/-- Each reserve is on one list, and those of a server are linked into one cycle. -/
structure Ringed {n : Nat} (cfg : NpsfConfig n) : Prop where
  nodup : cfg.allReserves.Nodup
  server : ∀ r ∈ cfg.allReserves, (cfg.reserve r).server ≠ none
  next : ∀ r ∈ cfg.allReserves, (cfg.reserve r).nextNpsf ≠ none ∧
    cfg.nextOf r ∈ cfg.allReserves ∧ (cfg.reserve (cfg.nextOf r)).server = (cfg.reserve r).server
  cycle : ∀ r ∈ cfg.allReserves, ∀ r' ∈ cfg.allReserves,
    (cfg.reserve r).server = (cfg.reserve r').server → ∃ k, cfg.nextOf^[k] r = r'

section

variable {n : Nat} {cfg : NpsfConfig n} {tmp : ReserveId}

/-! ### The walk along a chain -/

variable {r : ReserveId} {st : Cleanup} {done rs : List ReserveId}

section

variable (h : Ringed cfg) (htmp : tmp ∈ cfg.allReserves)

include h htmp

theorem Ringed.iterate (k : Nat) : cfg.nextOf^[k] tmp ∈ cfg.allReserves ∧
      (cfg.reserve (cfg.nextOf^[k] tmp)).server = (cfg.reserve tmp).server := by
  induction k with
  | zero => exact ⟨htmp, rfl⟩
  | succ k ih =>
    obtain ⟨-, hm, hsv⟩ := h.next _ ih.1
    rw [iterate_succ_apply']
    exact ⟨hm, hsv.trans ih.2⟩

theorem Ringed.period_pos : 0 < minimalPeriod cfg.nextOf tmp := by
  obtain ⟨-, hm, hsv⟩ := h.next tmp htmp
  obtain ⟨k, hk⟩ := h.cycle _ hm tmp htmp hsv
  have hper : IsPeriodicPt cfg.nextOf (k + 1) tmp := hk
  exact hper.minimalPeriod_pos (Nat.succ_pos k)

theorem Ringed.exists_iterate
    (hr : r ∈ cfg.allReserves) (hsv : (cfg.reserve r).server = (cfg.reserve tmp).server)
    (hne : r ≠ tmp) : ∃ j, 0 < j ∧ j < minimalPeriod cfg.nextOf tmp ∧ cfg.nextOf^[j] tmp = r := by
  obtain ⟨k, hk⟩ := h.cycle tmp htmp r hr hsv.symm
  refine ⟨k % minimalPeriod cfg.nextOf tmp, ?_, Nat.mod_lt _ (h.period_pos htmp), ?_⟩
  · apply Nat.pos_of_ne_zero
    intro h0
    have hmo := @iterate_mod_minimalPeriod_eq _ cfg.nextOf tmp k
    rw [h0, hk] at hmo
    exact hne hmo.symm
  rw [iterate_mod_minimalPeriod_eq, hk]

end

/-- All but the servers of some reserves is the same. -/
structure SameButServers (st st' : Cleanup) : Prop where
  freed : st'.freed = st.freed
  freedServers : st'.freedServers = st.freedServers
  stale : st'.stale = st.stale
  next : ∀ r, (st'.reserve r).nextNpsf = (st.reserve r).nextNpsf

theorem clearServer_live (hl : r ∉ st.freed) :
    SameButServers st (st.clearServer r) ∧ ((st.clearServer r).reserve r).server = none ∧
      ∀ r' ≠ r, ((st.clearServer r).reserve r').server = (st.reserve r').server := by
  have hacc : st.access r = st := if_neg hl
  rw [clearServer, hacc]
  refine ⟨⟨rfl, rfl, rfl, fun r' => ?_⟩, ?_, fun r' hr' => ?_⟩
  · by_cases hr' : r' = r
    · subst hr'
      simp
    simp [hr']
  · simp
  simp [hr']

/-- The walk from the `i`-th reserve of the chain on, by induction on the steps that are left.
    No reserve of the chain has been freed yet. -/
theorem blankServers_spec (h : Ringed cfg) (htmp : tmp ∈ cfg.allReserves) {fuel i : Nat}
    {st : Cleanup} (hi : i < minimalPeriod cfg.nextOf tmp)
    (hfue : minimalPeriod cfg.nextOf tmp ≤ i + fuel)
    (hn : ∀ r, (st.reserve r).nextNpsf = (cfg.reserve r).nextNpsf)
    (hl : ∀ k, cfg.nextOf^[k] tmp ∉ st.freed) :
    ∃ st', blankServers tmp fuel (cfg.nextOf^[i] tmp) st = some st' ∧ SameButServers st st' ∧
      (∀ j, i < j → j < minimalPeriod cfg.nextOf tmp →
        (st'.reserve (cfg.nextOf^[j] tmp)).server = none) ∧
      ∀ r, (∀ j, i < j → j < minimalPeriod cfg.nextOf tmp → cfg.nextOf^[j] tmp ≠ r) →
        (st'.reserve r).server = (st.reserve r).server := by
  induction fuel generalizing i st with
  | zero => omega
  | succ fuel ih =>
    have hs : (st.reserve (cfg.nextOf^[i] tmp)).nextNpsf = some (cfg.nextOf^[i + 1] tmp) := by
      obtain ⟨r', hr'⟩ := Option.ne_none_iff_exists'.mp (h.next _ (h.iterate htmp i).1).1
      rw [hn, iterate_succ_apply', nextOf, hr']
      rfl
    rw [blankServers, hs, Option.bind_some]
    by_cases hba : cfg.nextOf^[i + 1] tmp = tmp
    · -- back at the start: the whole chain has been seen
      have hend : minimalPeriod cfg.nextOf tmp ≤ i + 1 := by
        have hper : IsPeriodicPt cfg.nextOf (i + 1) tmp := hba
        exact hper.minimalPeriod_le (Nat.succ_pos i)
      rw [if_pos hba]
      exact ⟨st, rfl, ⟨rfl, rfl, rfl, fun _ => rfl⟩, fun j _ _ => by omega, fun _ _ => rfl⟩
    have hlt : i + 1 < minimalPeriod cfg.nextOf tmp := by
      apply Nat.lt_of_le_of_ne hi
      intro heq
      apply hba
      rw [← Nat.succ_eq_add_one, heq]
      exact iterate_minimalPeriod
    rw [if_neg hba]
    obtain ⟨hsm, hcle, ho⟩ := clearServer_live (hl (i + 1))
    obtain ⟨st', hwal, hsame', hbla, hk⟩ := @ih (i + 1)
      (st.clearServer (cfg.nextOf^[i + 1] tmp)) hlt (by omega)
      (fun r => (hsm.next r).trans (hn r)) (fun k => by rw [hsm.freed]; exact hl k)
    refine ⟨st', hwal, ⟨hsame'.freed.trans hsm.freed,
      hsame'.freedServers.trans hsm.freedServers, hsame'.stale.trans hsm.stale,
      fun r => (hsame'.next r).trans (hsm.next r)⟩, fun j hij hj => ?_, fun r hr => ?_⟩
    · rcases Nat.lt_or_eq_of_le (Nat.succ_le_of_lt hij) with hgt | rfl
      · exact hbla j hgt hj
      -- the walk does not come by a second time
      refine (hk _ fun j' hj' hlt' heq => ?_).trans hcle
      have := (iterate_eq_iterate_iff_of_lt_minimalPeriod hlt' hlt).mp heq
      omega
    refine (hk r fun j hj hlt' => hr j (by omega) hlt').trans (ho r ?_)
    exact (hr (i + 1) (Nat.lt_succ_self i) hlt).symm

/-! ### Freeing reserve after reserve -/

/-- The reserves in `done` have been freed, and with them their servers. -/
structure FreedUpTo (cfg : NpsfConfig n) (done : List ReserveId) (st : Cleanup) : Prop where
  freed : st.freed = done
  next : ∀ r, (st.reserve r).nextNpsf = (cfg.reserve r).nextNpsf
  taken : ∀ r ∈ cfg.allReserves, r ∉ done →
    (∃ r' ∈ done, (cfg.reserve r').server = (cfg.reserve r).server) →
    (st.reserve r).server = none
  left : ∀ r ∈ cfg.allReserves, r ∉ done →
    (∀ r' ∈ done, (cfg.reserve r').server ≠ (cfg.reserve r).server) →
    (st.reserve r).server = (cfg.reserve r).server
  servers : ∀ srv, srv ∈ st.freedServers ↔ ∃ r ∈ done, (cfg.reserve r).server = some srv
  once : st.freedServers.Nodup

theorem FreedUpTo.free_taken (hst : FreedUpTo cfg done st) (hr : r ∈ done)
    (hsv : (cfg.reserve r).server = (cfg.reserve tmp).server) :
    FreedUpTo cfg (done ++ [tmp]) { st with freed := st.freed ++ [tmp] } where
  freed := congrArg (· ++ [tmp]) hst.freed
  next := hst.next
  taken r' hr' hn := by
    rw [mem_append, mem_singleton, not_or] at hn
    rintro ⟨r1, hr1, heq⟩
    rcases mem_append.mp hr1 with hr1 | hr1
    · exact hst.taken r' hr' hn.1 ⟨r1, hr1, heq⟩
    rw [mem_singleton.mp hr1] at heq
    exact hst.taken r' hr' hn.1 ⟨r, hr, hsv.trans heq⟩
  left r' hr' hn hall := by
    rw [mem_append, mem_singleton, not_or] at hn
    exact hst.left r' hr' hn.1 fun r1 hr1 => hall r1 (mem_append_left _ hr1)
  servers srv := by
    rw [hst.servers]
    constructor
    · rintro ⟨r1, hr1, heq⟩
      exact ⟨r1, mem_append_left _ hr1, heq⟩
    rintro ⟨r1, hr1, heq⟩
    rcases mem_append.mp hr1 with hr1 | hr1
    · exact ⟨r1, hr1, heq⟩
    rw [mem_singleton.mp hr1] at heq
    exact ⟨r, hr, hsv.trans heq⟩
  once := hst.once

theorem FreedUpTo.free_first (h : Ringed cfg) (htmp : tmp ∈ cfg.allReserves) {st' : Cleanup}
    {srv : ServerId} (hst : FreedUpTo cfg done st)
    (hfi : ∀ r ∈ done, (cfg.reserve r).server ≠ (cfg.reserve tmp).server)
    (hsr : (cfg.reserve tmp).server = some srv) (hs : SameButServers st st')
    (hbla : ∀ j, 0 < j → j < minimalPeriod cfg.nextOf tmp →
      (st'.reserve (cfg.nextOf^[j] tmp)).server = none)
    (hk : ∀ r, (∀ j, 0 < j → j < minimalPeriod cfg.nextOf tmp → cfg.nextOf^[j] tmp ≠ r) →
      (st'.reserve r).server = (st.reserve r).server) :
    FreedUpTo cfg (done ++ [tmp])
      { st' with freedServers := st'.freedServers ++ [srv], freed := st'.freed ++ [tmp] } where
  freed := congrArg (· ++ [tmp]) (hs.freed.trans hst.freed)
  next r := (hs.next r).trans (hst.next r)
  taken r hr hn := by
    rw [mem_append, mem_singleton, not_or] at hn
    rintro ⟨r1, hr1, heq⟩
    by_cases hsv : (cfg.reserve r).server = (cfg.reserve tmp).server
    · obtain ⟨j, hp, hlt, rfl⟩ := h.exists_iterate htmp hr hsv hn.2
      exact hbla j hp hlt
    refine (hk r fun j _ _ hj => hsv ?_).trans (hst.taken r hr hn.1 ?_)
    · rw [← hj]
      exact (h.iterate htmp j).2
    · rcases mem_append.mp hr1 with hr1 | hr1
      · exact ⟨r1, hr1, heq⟩
      rw [mem_singleton.mp hr1] at heq
      exact absurd heq.symm hsv
  left r hr hn hal := by
    rw [mem_append, mem_singleton, not_or] at hn
    have hsv := hal tmp (mem_append_right _ (mem_singleton_self tmp))
    refine (hk r fun j _ _ hj => hsv ?_).trans
      (hst.left r hr hn.1 fun r1 hr1 => hal r1 (mem_append_left _ hr1))
    rw [← hj]
    exact (h.iterate htmp j).2.symm
  servers s := by
    change s ∈ st'.freedServers ++ [srv] ↔ _
    rw [hs.freedServers, mem_append, hst.servers, mem_singleton]
    constructor
    · rintro (⟨r, hr, heq⟩ | rfl)
      · exact ⟨r, mem_append_left _ hr, heq⟩
      exact ⟨tmp, mem_append_right _ (mem_singleton_self tmp), hsr⟩
    rintro ⟨r, hr, heq⟩
    rcases mem_append.mp hr with hr | hr
    · exact .inl ⟨r, hr, heq⟩
    rw [mem_singleton.mp hr, hsr] at heq
    exact .inr (Option.some.inj heq).symm
  once := by
    change (st'.freedServers ++ [srv]).Nodup
    rw [hs.freedServers, nodup_append_comm]
    refine nodup_cons.mpr ⟨fun hm => ?_, hst.once⟩
    obtain ⟨r, hr, heq⟩ := (hst.servers srv).mp hm
    exact hfi r hr (heq.trans hsr.symm)

theorem FreedUpTo.freeReserve (h : Ringed cfg) {fuel : Nat} (hst : FreedUpTo cfg done st)
    (htmp : tmp ∈ cfg.allReserves) (hnw : tmp ∉ done) (hfue : minimalPeriod cfg.nextOf tmp ≤ fuel) :
    ∃ st', freeReserve fuel st tmp = some st' ∧ FreedUpTo cfg (done ++ [tmp]) st' ∧
      st'.stale = st.stale := by
  by_cases hta : ∃ r ∈ done, (cfg.reserve r).server = (cfg.reserve tmp).server
  · obtain ⟨r, hr, hsv⟩ := hta
    have hn := hst.taken tmp htmp hnw ⟨r, hr, hsv⟩
    refine ⟨_, ?_, hst.free_taken hr hsv, rfl⟩
    rw [Cleanup.freeReserve, hn]
    rfl
  have hfi : ∀ r ∈ done, (cfg.reserve r).server ≠ (cfg.reserve tmp).server :=
    fun r hr heq => hta ⟨r, hr, heq⟩
  obtain ⟨srv, hsr⟩ := Option.ne_none_iff_exists'.mp (h.server tmp htmp)
  have hsv := hst.left tmp htmp hnw hfi
  have hl : ∀ k, cfg.nextOf^[k] tmp ∉ st.freed := by
    intro k hm
    rw [hst.freed] at hm
    exact hfi _ hm (h.iterate htmp k).2
  obtain ⟨st', hwal, hs, hbla, hk⟩ :=
    @blankServers_spec n cfg tmp h htmp fuel 0 st (h.period_pos htmp) (by omega) hst.next hl
  refine ⟨_, ?_, hst.free_first h htmp hfi hsr hs hbla hk, hs.stale⟩
  have hwalk' : blankServers tmp fuel tmp st = some st' := hwal
  rw [Cleanup.freeReserve, hsv, hsr]
  simp only [hwalk']
  rfl

/-! ### Unlinking the list heads -/

def listEnds (rs : List ReserveId) : List ReserveId := rs.head?.toList ++ rs.getLast?.toList

theorem listEnds_eq_nil_iff : listEnds rs = [] ↔ rs = [] := by
  cases rs with
  | nil => exact iff_of_true rfl rfl
  | cons r rs => simp [listEnds]

theorem access_freed (hr : r ∈ st.freed) :
    st.access r = { st with stale := st.stale ++ [r] } := if_pos hr

theorem listDel_freed (hfr : ∀ r ∈ rs, r ∈ st.freed) :
    listDel rs st = { st with stale := st.stale ++ listEnds rs } := by
  rcases hrs : rs with _ | ⟨r, rs'⟩
  · simp [listDel, listEnds]
  rw [← hrs]
  have hhe : rs.head? = some r := by
    rw [hrs]
    rfl
  obtain ⟨last, hla⟩ : ∃ last, rs.getLast? = some last := by
    rw [hrs]
    exact ⟨_, getLast?_eq_getLast_of_ne_nil (cons_ne_nil _ _)⟩
  rw [listDel, hhe, hla]
  dsimp only
  rw [access_freed (hfr r (mem_of_head? hhe))]
  have hfreed' : last ∈ ({ st with stale := st.stale ++ [r] } : Cleanup).freed :=
    hfr last (mem_of_getLast? hla)
  rw [access_freed hfreed', listEnds, hhe, hla]
  simp

theorem FreedUpTo.cleanupEntry (h : Ringed cfg) {rest : List ReserveId} {fuel : Nat}
    (hst : FreedUpTo cfg done st) (hal : cfg.allReserves = done ++ rs ++ rest)
    (hfue : ∀ r ∈ cfg.allReserves, minimalPeriod cfg.nextOf r ≤ fuel) :
    ∃ st', cleanupEntry fuel st rs = some st' ∧ FreedUpTo cfg (done ++ rs) st' ∧
      st'.stale = st.stale ++ listEnds rs := by
  have hno := h.nodup
  obtain ⟨st1, hloo, h1, hsta⟩ := Runs.foldlM_total (f := Cleanup.freeReserve fuel)
    (P := fun before s => FreedUpTo cfg (done ++ before) s ∧ s.stale = st.stale) rs
    (s := st) (fun before r after s hsp hs => by
      have hr : r ∈ cfg.allReserves := by
        rw [hal, hsp]
        simp
      have hnw : r ∉ done ++ before := by
        rw [hal, hsp, ← append_assoc, append_assoc, nodup_append] at hno
        exact fun hm => hno.2.2 r hm r (by simp) rfl
      obtain ⟨t, ht, hfr, hsm⟩ := hs.1.freeReserve h hr hnw (hfue r hr)
      refine ⟨t, ht, ?_, hsm.trans hs.2⟩
      rw [← append_assoc]
      exact hfr)
    ⟨by rw [append_nil]; exact hst, rfl⟩
  have hfr : ∀ r ∈ rs, r ∈ st1.freed := by
    intro r hr
    rw [h1.freed]
    exact mem_append_right _ hr
  refine ⟨{ st1 with stale := st1.stale ++ listEnds rs }, ?_, ?_, ?_⟩
  · rw [Cleanup.cleanupEntry, hloo, Option.map_some, listDel_freed hfr]
  · exact ⟨h1.freed, h1.next, h1.taken, h1.left, h1.servers, h1.once⟩
  change st1.stale ++ listEnds rs = _
  rw [hsta]

theorem cleanupNpsf_spec (h : Ringed cfg) {fuel : Nat}
    (hfue : ∀ r ∈ cfg.allReserves, minimalPeriod cfg.nextOf r ≤ fuel) :
    ∃ st, cfg.cleanupNpsf fuel = some st ∧ FreedUpTo cfg cfg.allReserves st ∧
      st.stale = (finRange n).flatMap fun c => listEnds (cfg.entry c).npsfReserves := by
  obtain ⟨st, hloo, hst, hsa⟩ := Runs.foldlM_total (f := Cleanup.cleanupEntry fuel)
    (P := fun before s => FreedUpTo cfg before.flatten s ∧ s.stale = before.flatMap listEnds)
    ((finRange n).map fun c => (cfg.entry c).npsfReserves)
    (s := { reserve := cfg.reserve, freed := [], freedServers := [], stale := [] })
    (fun before rs after s hsp hs => by
      have hall : cfg.allReserves = before.flatten ++ rs ++ after.flatten := by
        rw [allReserves, hsp]
        simp
      obtain ⟨t, ht, hfre, hsa⟩ := hs.1.cleanupEntry h hall hfue
      refine ⟨t, ht, ?_, ?_⟩
      · rw [flatten_append]
        simpa using hfre
      rw [hsa, hs.2]
      simp)
    ⟨⟨rfl, fun _ => rfl, fun r _ _ ⟨_, hr', _⟩ => (by cases hr'), fun _ _ _ _ => rfl,
      fun srv => by simp, nodup_nil⟩, rfl⟩
  refine ⟨st, hloo, hst, ?_⟩
  rw [hsa, flatMap_map]

end

/-- `cleanup_npsf` ends, frees each reserve and each server once, and its walks come by no freed
    reserve.  But it writes to freed reserves, the first and the last one of each list, unless
    there are no reserves at all. -/
theorem npsf_cleanup_iff {n : Nat} {cfg : NpsfConfig n} (h : Ringed cfg) :
    ∃ bound, ∀ fuel ≥ bound, ∃ st, cfg.cleanupNpsf fuel = some st ∧
      st.freed.Nodup ∧ (∀ r, r ∈ st.freed ↔ ∃ c, r ∈ (cfg.entry c).npsfReserves) ∧
      st.freedServers.Nodup ∧
      (∀ srv, srv ∈ st.freedServers ↔
        ∃ c, ∃ r ∈ (cfg.entry c).npsfReserves, (cfg.reserve r).server = some srv) ∧
      (∀ r ∈ st.stale, ∃ c, (cfg.entry c).npsfReserves.head? = some r ∨
        (cfg.entry c).npsfReserves.getLast? = some r) ∧
      (st.stale = [] ↔ ∀ c, (cfg.entry c).npsfReserves = []) := by
  refine ⟨(cfg.allReserves.map (minimalPeriod cfg.nextOf)).sum, fun fuel hfuel => ?_⟩
  obtain ⟨st, hcleanup, hst, hstale⟩ := @cleanupNpsf_spec n cfg h fuel fun r hr =>
    Nat.le_trans (single_le_sum (fun _ _ => Nat.zero_le _) _ (mem_map_of_mem hr)) hfuel
  have hm : ∀ r, r ∈ cfg.allReserves ↔ ∃ c, r ∈ (cfg.entry c).npsfReserves := by
    intro r
    simp [allReserves]
  refine ⟨st, hcleanup, hst.freed ▸ h.nodup, fun r => ?_, hst.once, fun srv => ?_, fun r hr => ?_,
    ?_⟩
  · rw [hst.freed, hm]
  · rw [hst.servers]
    constructor
    · rintro ⟨r, hr, heq⟩
      obtain ⟨c, hc⟩ := (hm r).mp hr
      exact ⟨c, r, hc, heq⟩
    rintro ⟨c, r, hc, heq⟩
    exact ⟨r, (hm r).mpr ⟨c, hc⟩, heq⟩
  · rw [hstale, mem_flatMap] at hr
    obtain ⟨c, -, hc⟩ := hr
    refine ⟨c, ?_⟩
    simpa [listEnds, eq_comm] using hc
  · rw [hstale, flatMap_eq_nil_iff]
    constructor
    · exact fun hall c => listEnds_eq_nil_iff.mp (hall c (mem_finRange c))
    exact fun hall c _ => listEnds_eq_nil_iff.mpr (hall c)

/-- A server with one reserve on each of two CPUs. -/
def ringConfig : NpsfConfig 2 :=
  { init 2 with
    entry := fun c =>
      { cpuReserve := some c.val, npsfReserves := [c.val], lastSeenNpsfId := 0 }
    reserve := fun r =>
      { server := some 0, budget := 50, cpu := r, npsfId := 0, nextNpsf := some (1 - r) } }

theorem ringConfig_ringed : Ringed ringConfig where
  nodup := by decide
  server := by decide
  next := by decide
  cycle r hr r' hr' _ := by
    have hall : ringConfig.allReserves = [0, 1] := by decide
    rw [hall, mem_pair] at hr hr'
    rcases hr with rfl | rfl <;> rcases hr' with rfl | rfl
    · exact ⟨0, rfl⟩
    · exact ⟨1, rfl⟩
    · exact ⟨1, rfl⟩
    · exact ⟨0, rfl⟩

theorem npsf_cleanup_iff_ring :
    ∃ fuel st, ringConfig.cleanupNpsf fuel = some st ∧ st.freed.Nodup ∧ 1 ∈ st.freed ∧
      st.freedServers.Nodup ∧ 0 ∈ st.freedServers := by
  obtain ⟨bound, hbound⟩ := npsf_cleanup_iff ringConfig_ringed
  obtain ⟨st, hcleanup, hnodup, hfreed, honce, hservers, -⟩ := hbound bound le_rfl
  exact ⟨bound, st, hcleanup, hnodup, (hfreed 1).mpr ⟨1, by decide⟩, honce,
    (hservers 0).mpr ⟨0, 0, by decide, rfl⟩⟩

/-- `list_del` writes to both reserves after they have been freed. -/
theorem npsf_cleanup_writes_freed :
    ∃ st, ringConfig.cleanupNpsf 2 = some st ∧ st.freed = [0, 1] ∧ st.freedServers = [0] ∧
      st.stale = [0, 0, 1, 1] :=
  ⟨_, rfl, rfl, rfl, rfl⟩

end Litmus.Npsf
