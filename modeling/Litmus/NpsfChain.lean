import Litmus.NpsfConfig

/-!
# The chain of a server's reserves

`sys_add_server` links the reserves of a server into a chain.  It recognises the last one by
the entry after it in the array of budgets.
-/

namespace Litmus.Npsf

open NpsfConfig List

/-- The first `k` of the `n` entries name CPUs. -/
structure Listed (n k : Nat) (budgets : Nat → NpsfBudgets) : Prop where
  pos : 0 < k
  le : k ≤ n
  cpu : ∀ i < k, (budgets i).cpu ≠ NO_CPU
  rest : ∀ i, k ≤ i → i < n → (budgets i).cpu = NO_CPU

/-- The read is of an entry of `budgets`, or of a reserve that has been added. -/
def NpsfConfig.Read.Initialised (n k : Nat) : Read → Prop
  | .budgets i => i < n
  | .reserveArray i => i < k

section

variable {n k : Nat} {budgets : Nat → NpsfBudgets} {array : Nat → ReserveId}

theorem read_end (h : Listed n k budgets) {i : Nat} (hi : i ≤ k) :
    Read.budgets k ∈ (linkReserves n budgets array (n - i) i).2 := by
  obtain ⟨d, hd⟩ : ∃ d, d = k - i := ⟨_, rfl⟩
  induction d generalizing i with
  | zero =>
    obtain rfl : i = k := by omega
    rcases Nat.lt_or_eq_of_le h.le with hlt | heq
    · obtain ⟨fuel, hfu⟩ : ∃ fuel, n - i = fuel + 1 := ⟨n - i - 1, by omega⟩
      rw [hfu, linkReserves, if_pos (h.rest i le_rfl hlt)]
      exact mem_singleton_self _
    rw [heq, Nat.sub_self]
    exact mem_singleton_self _
  | succ d ih =>
    obtain ⟨fuel, hfu⟩ : ∃ fuel, n - i = fuel + 1 := ⟨n - i - 1, by have := h.le; omega⟩
    have hre := @ih (i + 1) (by omega) (by omega)
    rw [hfu, linkReserves, if_neg (h.cpu i (by omega))]
    rw [show n - (i + 1) = fuel by omega] at hre
    simp only [cons_append, mem_cons, mem_append]
    exact .inr (.inr (.inr hre))

theorem linkReserve_spec (h : Listed n k budgets) (hk : k < n) {i : Nat} (hi : i < k) :
    (linkReserve n budgets array i).1 = array ((i + 1) % k) ∧
      ∀ r ∈ (linkReserve n budgets array i).2, r.Initialised n k := by
  rcases Nat.lt_or_eq_of_le (Nat.succ_le_of_lt hi) with hlt | heq
  · have hcp := h.cpu (i + 1) hlt
    have hrea : i = 0 ∨ i + 1 < n := .inr (by omega)
    rw [linkReserve, if_neg (fun hc => hcp hc.2), if_neg (fun hc => hcp hc.2.2), if_pos hrea,
      Nat.mod_eq_of_lt hlt]
    refine ⟨rfl, fun r hr => ?_⟩
    simp only [cons_append, nil_append, mem_cons, not_mem_nil, or_false] at hr
    rcases hr with rfl | rfl
    · exact lt_trans hlt hk
    exact hlt
  have hn := h.rest (i + 1) (by omega) (by omega)
  have hmod : (i + 1) % k = 0 := by
    rw [← heq]
    exact Nat.mod_self _
  rw [hmod]
  by_cases h0 : i = 0
  · subst h0
    rw [linkReserve, if_pos ⟨rfl, hn⟩]
    refine ⟨rfl, fun r hr => ?_⟩
    simp only [mem_cons, not_mem_nil, or_false] at hr
    rcases hr with rfl | rfl
    · exact lt_of_le_of_lt (Nat.succ_le_of_lt hi) hk
    exact hi
  rw [linkReserve, if_neg (fun hc => h0 hc.1),
    if_pos ⟨by omega, Nat.pos_of_ne_zero h0, hn⟩]
  refine ⟨rfl, fun r hr => ?_⟩
  simp only [mem_cons, not_mem_nil, or_false] at hr
  rcases hr with rfl | rfl
  · exact lt_of_le_of_lt (Nat.succ_le_of_lt hi) hk
  exact h.pos

theorem linkReserves_spec (h : Listed n k budgets) (hk : k < n) {i : Nat} (hi : i ≤ k) :
    (linkReserves n budgets array (n - i) i).1 =
        (range' i (k - i)).map (fun j => (array j, array ((j + 1) % k))) ∧
      ∀ r ∈ (linkReserves n budgets array (n - i) i).2, r.Initialised n k := by
  obtain ⟨d, hd⟩ : ∃ d, d = k - i := ⟨_, rfl⟩
  obtain ⟨fuel, hfu⟩ : ∃ fuel, n - i = fuel + 1 := ⟨n - i - 1, by omega⟩
  induction d generalizing i fuel with
  | zero =>
    obtain rfl : i = k := by omega
    rw [hfu, linkReserves, if_pos (h.rest i le_rfl hk), ← hd]
    refine ⟨rfl, fun r hr => ?_⟩
    rw [mem_singleton.mp hr]
    exact hk
  | succ d ih =>
    have hlt : i < k := by omega
    obtain ⟨hn, hrea⟩ := @linkReserve_spec n k budgets array h hk i hlt
    obtain ⟨hwr, hreads'⟩ := @ih (i + 1) (by omega) (by omega) (fuel - 1) (by omega)
    rw [show n - (i + 1) = fuel by omega] at hwr hreads'
    rw [hfu, linkReserves, if_neg (h.cpu i hlt)]
    refine ⟨?_, fun r hr => ?_⟩
    · rw [show k - i = (k - (i + 1)) + 1 by omega, range'_succ, map_cons, ← hwr,
        ← hn]
    simp only [cons_append, mem_cons, mem_append] at hr
    rcases hr with rfl | hr | rfl | hr
    · exact lt_trans hlt hk
    · exact hrea r hr
    · exact hlt
    · exact hreads' r hr

end

/-- `next_npsf` apart, linking changes no reserve. -/
def NpsfReserve.unlinked (r : NpsfReserve) : NpsfReserve := { r with nextNpsf := none }

theorem NpsfReserve.server_of_unlinked {r r' : NpsfReserve} (h : r.unlinked = r'.unlinked) :
    r.server = r'.server := by
  change r.unlinked.server = r'.unlinked.server
  rw [h]

section

variable {n : Nat}

structure SameButNext (cfg cfg' : NpsfConfig n) : Prop where
  entry : cfg'.entry = cfg.entry
  server : cfg'.server = cfg.server
  allServersAdded : cfg'.allServersAdded = cfg.allServersAdded
  nextReserve : cfg'.nextReserve = cfg.nextReserve
  nextServer : cfg'.nextServer = cfg.nextServer
  reserve : ∀ r, (cfg'.reserve r).unlinked = (cfg.reserve r).unlinked

theorem SameButNext.setNext (cfg : NpsfConfig n) (link : ReserveId × ReserveId) :
    SameButNext cfg (cfg.setNext link) := by
  refine ⟨rfl, rfl, rfl, rfl, rfl, fun r => ?_⟩
  by_cases hr : r = link.1
  · subst hr
    simp [NpsfConfig.setNext, NpsfReserve.unlinked]
  simp [NpsfConfig.setNext, hr]

theorem SameButNext.foldl (links : List (ReserveId × ReserveId)) (cfg : NpsfConfig n) :
    SameButNext cfg (links.foldl NpsfConfig.setNext cfg) := by
  induction links generalizing cfg with
  | nil => exact ⟨rfl, rfl, rfl, rfl, rfl, fun _ => rfl⟩
  | cons link links ih =>
    have hfi := SameButNext.setNext cfg link
    have hre := ih (cfg.setNext link)
    exact ⟨hre.entry.trans hfi.entry, hre.server.trans hfi.server,
      hre.allServersAdded.trans hfi.allServersAdded,
      hre.nextReserve.trans hfi.nextReserve, hre.nextServer.trans hfi.nextServer,
      fun r => (hre.reserve r).trans (hfi.reserve r)⟩

theorem nextNpsf_foldl_of_not_mem {links : List (ReserveId × ReserveId)} {r : ReserveId}
    (hr : r ∉ links.map Prod.fst) (cfg : NpsfConfig n) :
    ((links.foldl NpsfConfig.setNext cfg).reserve r).nextNpsf = (cfg.reserve r).nextNpsf := by
  induction links generalizing cfg with
  | nil => rfl
  | cons link links ih =>
    rw [map_cons, mem_cons, not_or] at hr
    rw [foldl_cons, ih hr.2]
    simp [NpsfConfig.setNext, hr.1]

theorem nextNpsf_foldl {links : List (ReserveId × ReserveId)} (hno : (links.map Prod.fst).Nodup)
    {link : ReserveId × ReserveId} (hli : link ∈ links) (cfg : NpsfConfig n) :
    ((links.foldl NpsfConfig.setNext cfg).reserve link.1).nextNpsf = some link.2 := by
  induction links generalizing cfg with
  | nil => cases hli
  | cons first links ih =>
    rw [map_cons, nodup_cons] at hno
    rcases mem_cons.mp hli with rfl | hli
    · rw [foldl_cons, nextNpsf_foldl_of_not_mem hno.1]
      simp [NpsfConfig.setNext]
    exact ih hno.2 hli _

end

/-- The chain is closed, and only initialised entries are read, if and only if `budgets` has an
    entry without a CPU. -/
theorem npsf_chain_closed_iff {n k : Nat} {budgets : Nat → NpsfBudgets}
    {array : Nat → ReserveId} (h : Listed n k budgets)
    (hinj : ∀ i < k, ∀ j < k, array i = array j → i = j) (cfg : NpsfConfig n) (srv : ServerId) :
    (∀ i < k, ((cfg.linkServer budgets srv array).reserve (array i)).nextNpsf =
        some (array ((i + 1) % k))) ∧
      (∀ r ∈ (linkReserves n budgets array n 0).2, r.Initialised n k) ↔ k < n := by
  constructor
  · rintro ⟨-, hreads⟩
    exact hreads _ (read_end h (Nat.zero_le k))
  intro hk
  obtain ⟨hwrites, hreads⟩ := @linkReserves_spec n k budgets array h hk 0 (Nat.zero_le k)
  rw [Nat.sub_zero, Nat.sub_zero, ← range_eq_range'] at hwrites
  refine ⟨fun i hi => ?_, hreads⟩
  rw [linkServer, hwrites]
  refine nextNpsf_foldl ?_ (mem_map_of_mem (f := fun j => (array j, array ((j + 1) % k)))
      (mem_range.mpr hi)) _
  rw [map_map]
  exact nodup_range.map_on fun i hi j hj =>
    hinj i (mem_range.mp hi) j (mem_range.mp hj)

/-- A server with a reserve of 50 on each of the first `k` CPUs. -/
def evenBudgets (k i : Nat) : NpsfBudgets :=
  if i < k then { cpu := BitVec.ofNat 32 i, budget := 50 } else { cpu := NO_CPU, budget := 0 }

/-- Two reserves on three CPUs. -/
theorem npsf_chain_closed_iff_two_of_three :
    Listed 3 2 (evenBudgets 2) ∧
      (((init 3).linkServer (evenBudgets 2) 0 id).reserve 0).nextNpsf = some 1 ∧
      (((init 3).linkServer (evenBudgets 2) 0 id).reserve 1).nextNpsf = some 0 := by
  have hlisted : Listed 3 2 (evenBudgets 2) := ⟨by decide, by decide, by decide, by decide⟩
  have hclosed := (npsf_chain_closed_iff hlisted (fun _ _ _ _ h => h) (init 3) 0).mpr (by decide)
  exact ⟨hlisted, hclosed.1 0 (by decide), hclosed.1 1 (by decide)⟩

/-- With a reserve on each CPU, the last one is linked to what happens to be on the stack. -/
theorem npsf_chain_open :
    Listed 2 2 (evenBudgets 2) ∧ ∀ array : Nat → ReserveId, array 1 ≠ array 0 →
        (((init 2).linkServer (evenBudgets 2) 0 array).reserve (array 1)).nextNpsf =
          some (array 2) ∧
        Read.reserveArray 2 ∈ (linkReserves 2 (evenBudgets 2) array 2 0).2 ∧
        Read.budgets 2 ∈ (linkReserves 2 (evenBudgets 2) array 2 0).2 := by
  refine ⟨⟨by decide, by decide, by decide, by decide⟩, fun array hne => ?_⟩
  have hloop : linkReserves 2 (evenBudgets 2) array 2 0 = ([(array 0, array 1), (array 1, array 2)],
        [.budgets 0, .budgets 1, .reserveArray 1, .reserveArray 0, .budgets 1, .reserveArray 2,
          .reserveArray 1, .budgets 2]) := rfl
  rw [linkServer, hloop]
  refine ⟨nextNpsf_foldl ?_ (mem_cons_of_mem _ (mem_cons_self)) _, by simp, by simp⟩
  simpa using hne.symm

end Litmus.Npsf
