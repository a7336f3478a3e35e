import Litmus.NpsfAddServer

/-!
# What a call installs

`sys_add_server` copies `sizeof(budgets) * n` bytes of the caller's array of `n` entries, where
`sizeof(budgets)` is the size of a pointer.  The entries beyond keep their defaults, and one
entry may be copied in part.
-/

namespace Litmus.Npsf

open NpsfConfig Function Option

/-! ### What the kernel sees of the array -/

section

variable {abi : Abi} {n k : Nat} {es : Nat → NpsfBudgets} {beyond : Nat → Word}

theorem Abi.array_word (abi : Abi) (es : Nat → NpsfBudgets) (i : Nat) {o : Nat}
    (ho : o < abi.entry) : abi.array es (abi.entry * i + o) = abi.wordOf (es i) o := by
  have hp : 0 < abi.entry := Nat.zero_lt_of_lt ho
  rw [Abi.array, Nat.mul_add_div hp, Nat.div_eq_of_lt ho, add_zero, Nat.mul_add_mod,
    Nat.mod_eq_of_lt ho]

theorem Abi.kernelWord (abi : Abi) {i o : Nat} (hi : i < n) (ho : o < abi.entry) :
    (if abi.entry * i + o < abi.pointer * n then abi.array es (abi.entry * i + o)
      else if abi.entry * i + o < abi.entry * n then
        abi.array (fun _ => { cpu := NO_CPU, budget := 0 }) (abi.entry * i + o)
      else beyond (abi.entry * i + o)) =
    if abi.entry * i + o < abi.pointer * n then abi.wordOf (es i) o
      else abi.wordOf { cpu := NO_CPU, budget := 0 } o := by
  have hlt : abi.entry * i + o < abi.entry * n :=
    calc abi.entry * i + o < abi.entry * i + abi.entry := Nat.add_lt_add_left ho _
      _ = abi.entry * (i + 1) := rfl
      _ ≤ abi.entry * n := Nat.mul_le_mul_left _ hi
  rw [if_pos hlt, abi.array_word es i ho, abi.array_word _ i ho]

theorem cpu_kernelBudgets {i : Nat} (hi : i < n) :
    (abi.kernelBudgets n (abi.array es) beyond i).cpu =
      if abi.entry * i < abi.pointer * n then (es i).cpu else NO_CPU :=
  abi.kernelWord hi (Nat.zero_lt_of_lt abi.pointer_lt)

def NpsfBudgets.low (e : NpsfBudgets) : Word := e.budget.extractLsb' 0 32

def NpsfBudgets.high (e : NpsfBudgets) : Word := e.budget.extractLsb' 32 32

theorem high_append_low (e : NpsfBudgets) : e.high ++ e.low = e.budget :=
  (BitVec.extractLsb'_append_extractLsb'_eq_extractLsb' rfl).trans BitVec.extractLsb'_eq_self

theorem word_append_inj {a b c d : Word} (h : a ++ b = c ++ d) : a = c ∧ b = d := by
  have hhi := congrArg (BitVec.extractLsb' 32 32) h
  have hlo := congrArg (BitVec.extractLsb' 0 32) h
  rw [BitVec.extractLsb'_append_eq_of_le (le_refl 32),
    BitVec.extractLsb'_append_eq_of_le (le_refl 32)] at hhi
  rw [BitVec.extractLsb'_append_eq_of_add_le (le_refl 32), BitVec.extractLsb'_append_eq_of_add_le
    (le_refl 32), BitVec.extractLsb'_eq_self, BitVec.extractLsb'_eq_self] at hlo
  exact ⟨by simpa using hhi, hlo⟩

theorem Abi.wordOf_low (abi : Abi) (e : NpsfBudgets) : abi.wordOf e abi.budget = e.low := by
  rw [Abi.wordOf, if_neg (ne_of_gt abi.budget_pos), if_pos rfl]
  rfl

theorem Abi.wordOf_high (abi : Abi) (e : NpsfBudgets) : abi.wordOf e (abi.budget + 1) = e.high := by
  rw [Abi.wordOf, if_neg (Nat.succ_ne_zero _), if_neg (Nat.succ_ne_self _), if_pos rfl]
  rfl

theorem budget_kernelBudgets {i : Nat} (hi : i < n) :
    (abi.kernelBudgets n (abi.array es) beyond i).budget =
      (if abi.entry * i + abi.budget + 1 < abi.pointer * n then (es i).high else 0) ++
        (if abi.entry * i + abi.budget < abi.pointer * n then (es i).low else 0) := by
  have hlo := @Abi.kernelWord n es beyond abi i abi.budget hi (by rw [abi.entry_eq]; omega)
  have hhi := @Abi.kernelWord n es beyond abi i (abi.budget + 1) hi (by rw [abi.entry_eq]; omega)
  rw [abi.wordOf_low, abi.wordOf_low] at hlo
  rw [abi.wordOf_high, abi.wordOf_high] at hhi
  exact congrArg₂ (· ++ ·) hhi hlo

/-- The last of `k` entries is copied, but for words of its budget that are zero anyway. -/
def SeenWhole (abi : Abi) (n k : Nat) (es : Nat → NpsfBudgets) : Prop :=
  abi.entry * (k - 1) < abi.pointer * n ∧
    (abi.entry * (k - 1) + abi.budget < abi.pointer * n ∨ (es (k - 1)).low = 0) ∧
    (abi.entry * (k - 1) + abi.budget + 1 < abi.pointer * n ∨ (es (k - 1)).high = 0)

theorem kernelBudgets_eq_of_copied {i : Nat} (hi : i < n) (hc : abi.entry * i < abi.pointer * n)
    (hlow : abi.entry * i + abi.budget < abi.pointer * n ∨ (es i).low = 0)
    (hhig : abi.entry * i + abi.budget + 1 < abi.pointer * n ∨ (es i).high = 0) :
    abi.kernelBudgets n (abi.array es) beyond i = es i := by
  have hcpu' := @cpu_kernelBudgets abi n es beyond i hi
  have hbu := @budget_kernelBudgets abi n es beyond i hi
  rw [if_pos hc] at hcpu'
  have hlow' : (if abi.entry * i + abi.budget < abi.pointer * n then (es i).low else 0) =
      (es i).low := by
    rw [ite_eq_left_iff]
    exact fun hn => (hlow.resolve_left hn).symm
  have hhigh' : (if abi.entry * i + abi.budget + 1 < abi.pointer * n then (es i).high else 0) =
      (es i).high := by
    rw [ite_eq_left_iff]
    exact fun hn => (hhig.resolve_left hn).symm
  rw [hlow', hhigh', high_append_low] at hbu
  exact (NpsfBudgets.ext hcpu' hbu)

theorem seenWhole_iff (h : Listed n k es) :
    SeenWhole abi n k es ↔ ∀ i < k, abi.kernelBudgets n (abi.array es) beyond i = es i := by
  have hp := h.pos
  have hle := h.le
  constructor
  · rintro ⟨hc, hlo, hhi⟩ i hi
    rcases Nat.lt_or_eq_of_le (Nat.le_sub_one_of_lt hi) with hlt | rfl
    · have hal : abi.entry * i + abi.budget + 1 < abi.pointer * n := by
        have hn : abi.entry * (i + 1) ≤ abi.entry * (k - 1) := Nat.mul_le_mul_left _ hlt
        have hsiz := abi.entry_eq
        rw [Nat.mul_succ] at hn
        omega
      exact kernelBudgets_eq_of_copied (by omega) (by omega) (.inl (by omega)) (.inl hal)
    exact kernelBudgets_eq_of_copied (by omega) hc hlo hhi
  intro hal
  have heq := hal (k - 1) (by omega)
  have hc := congrArg NpsfBudgets.cpu heq
  have hbu := congrArg NpsfBudgets.budget heq
  rw [cpu_kernelBudgets (by omega)] at hc
  rw [budget_kernelBudgets (by omega), ← high_append_low] at hbu
  obtain ⟨hhi, hlo⟩ := word_append_inj hbu
  refine ⟨?_, ?_, ?_⟩
  · by_contra hno
    rw [if_neg hno] at hc
    exact h.cpu (k - 1) (by omega) hc.symm
  · by_contra hno
    rw [not_or] at hno
    rw [if_neg hno.1] at hlo
    exact hno.2 hlo.symm
  by_contra hno
  rw [not_or] at hno
  rw [if_neg hno.1] at hhi
  exact hno.2 hhi.symm

end

/-! ### What is installed -/

variable {n : Nat} {cfg cfg' : NpsfConfig n}

/-- The server `srv` has the reserves `rs`, one for each of the `k` entries, appended to the
    lists of their CPUs. -/
structure Installed {n : Nat} (cfg cfg' : NpsfConfig n) (id : Int) (k : Nat)
    (es : Nat → NpsfBudgets) (srv : ServerId) (rs : List ReserveId) : Prop where
  length : rs.length = k
  nodup : rs.Nodup
  reserve : ∀ i r, rs[i]? = some r → (cfg'.reserve r).unlinked =
    { server := some srv, budget := (es i).budget, cpu := (es i).cpu.toNat, npsfId := id
      nextNpsf := none }
  lists : ∀ c : Fin n, (cfg'.entry c).npsfReserves =
    (cfg.entry c).npsfReserves ++ rs.filter fun r => (cfg'.reserve r).cpu == c
  first : rs.head? = some (cfg'.server srv).firstReserve
  curr : (cfg'.server srv).currReserve = (cfg'.server srv).firstReserve

/-- Reserves and servers on the lists have been allocated. -/
def WellFormed {n : Nat} (cfg : NpsfConfig n) : Prop :=
  ∀ c, ∀ r ∈ (cfg.entry c).npsfReserves, r < cfg.nextReserve ∧
    ∃ srv < cfg.nextServer, (cfg.reserve r).server = some srv

theorem wellFormed_init (n : Nat) : WellFormed (init n) := fun _ _ hr => by cases hr

/-- The reserves on the lists, after changes that leave the servers of all reserves alone. -/
theorem WellFormed.of_frame (h : WellFormed cfg)
    (hlis : ∀ c, (cfg'.entry c).npsfReserves = (cfg.entry c).npsfReserves)
    (hsv : ∀ r, (cfg'.reserve r).server = (cfg.reserve r).server)
    (hres : cfg'.nextReserve = cfg.nextReserve) (hn : cfg'.nextServer = cfg.nextServer) :
    WellFormed cfg' := by
  intro c r hr
  rw [hres, hn, hsv]
  exact h c r (hlis c ▸ hr)

theorem WellFormed.added {m : Nat} {budgets : Nat → NpsfBudgets} {id : Int} (h : WellFormed cfg)
    (had : Added budgets cfg.nextServer id { cfg with nextServer := cfg.nextServer + 1 } m
      cfg') : WellFormed cfg' := by
  intro c r hr
  rw [had.appended] at hr
  rw [had.nextReserve, had.nextServer]
  rcases List.mem_append.mp hr with hr | hr
  · obtain ⟨hlt, srv, hsrv, heq⟩ := h c r hr
    refine ⟨lt_of_lt_of_le hlt (Nat.le_add_right _ _), srv, Nat.lt_succ_of_lt hsrv, ?_⟩
    rw [had.older r hlt]
    exact heq
  obtain ⟨i, hi, rfl⟩ := List.mem_map.mp hr
  have hlt : i < m := List.mem_range.mp (List.mem_of_mem_filter hi)
  refine ⟨Nat.add_lt_add_left hlt _, cfg.nextServer, Nat.lt_succ_self _, ?_⟩
  rw [had.reserve i hlt]

theorem WellFormed.finishServer {budgets : Nat → NpsfBudgets} {srv : ServerId}
    {array : Nat → ReserveId} {last : Bool} (h : WellFormed cfg)
    (hfin : cfg.finishServer budgets srv array last = some cfg') : WellFormed cfg' := by
  have hfr := linkServer_frame cfg budgets srv array
  have hlk := h.of_frame (fun c => by rw [hfr.entry]; rfl)
      (fun r => NpsfReserve.server_of_unlinked (hfr.reserve r)) hfr.nextReserve
      hfr.nextServer
  obtain ⟨cfg2, hla, rfl⟩ := map_eq_some_iff.mp hfin
  cases last with
  | false =>
    cases hla
    exact hlk
  | true =>
    obtain ⟨hsd, -⟩ := enablePlugin_spec hla
    exact hlk.of_frame hsd.lists (fun r => by rw [← hsd.reserve])
      hsd.nextReserve hsd.nextServer

theorem WellFormed.call {abi : Abi} {env : CallEnv} {id ret : Int} {user : Nat → Word} {last : Bool}
    (h : WellFormed cfg) (hcal : cfg.sysAddServer abi env id user last = some (ret, cfg')) :
    WellFormed cfg' := by
  rcases sysAddServer_cases hcal with ⟨-, rfl, -⟩ | ⟨-, failed, added, cfg1, hloo, herr, hok⟩
  · exact h
  obtain ⟨m, -, hend⟩ := addReserves_spec (i := 0) (Added.refl _) (zero_add n) rfl hloo
  have had := h.added hend.added
  cases failed with
  | true => exact herr rfl ▸ had
  | false => exact had.finishServer (hok rfl)

/-- Enabling the plugin leaves the server at its first reserve: where another of its reserves
    is the first one on a CPU, that CPU has a smaller number. -/
def FirstStays {n : Nat} (cfg : NpsfConfig n) (k : Nat) (es : Nat → NpsfBudgets) : Prop :=
  ∀ i, 0 < i → i < k → ∀ c c₀ : Fin n, (es i).cpu.toNat = c → (es 0).cpu.toNat = c₀ →
    (cfg.entry c).npsfReserves = [] → (cfg.entry c₀).npsfReserves = [] ∧ c < c₀

theorem FirstStays.congr {k : Nat} {es es' : Nat → NpsfBudgets} (h : FirstStays cfg k es)
    (hs : ∀ i < k, es i = es' i) : FirstStays cfg k es' := by
  intro i hp hi c c0 hc hc0
  rw [← hs i hi] at hc
  rw [← hs 0 (lt_trans hp hi)] at hc0
  exact h i hp hi c c0 hc hc0

/-- The configuration after a call that has added `m` reserves and returned. -/
structure Outcome {n : Nat} (budgets : Nat → NpsfBudgets) (id : Int) (cfg : NpsfConfig n)
    (m : Nat) (last : Bool) (cfg' : NpsfConfig n) : Prop where
  listed : ∀ i < m, (budgets i).cpu.toNat < n
  reserve : ∀ i < m, (cfg'.reserve (cfg.nextReserve + i)).unlinked =
    { server := some cfg.nextServer, budget := (budgets i).budget
      cpu := (budgets i).cpu.toNat, npsfId := id, nextNpsf := none }
  older : ∀ r < cfg.nextReserve, (cfg'.reserve r).unlinked = (cfg.reserve r).unlinked
  lists : ∀ c : Fin n, (cfg'.entry c).npsfReserves = (cfg.entry c).npsfReserves ++
    ((List.range m).filter fun i => (budgets i).cpu.toNat == c).map (cfg.nextReserve + ·)
  first : (cfg'.server cfg.nextServer).firstReserve = cfg.nextReserve
  curr : last = false → (cfg'.server cfg.nextServer).currReserve = cfg.nextReserve
  started : last = true → (∀ c, headServer cfg' c ≠ some cfg.nextServer) ∧
        (cfg'.server cfg.nextServer).currReserve = cfg.nextReserve ∨
      ∃ c, (cfg'.entry c).npsfReserves.head? = some (cfg'.server cfg.nextServer).currReserve ∧
        headServer cfg' c = some cfg.nextServer ∧
        ∀ c', headServer cfg' c' = some cfg.nextServer → c' ≤ c

section

variable {n : Nat} {abi : Abi} {env : CallEnv} {budgets : Nat → NpsfBudgets} {id : Int}
  {user : Nat → Word} {last : Bool} {cfg cfg' : NpsfConfig n}

theorem Added.outcome {m : Nat} {cfg1 : NpsfConfig n} {array : Nat → ReserveId}
    (h : Added budgets cfg.nextServer id { cfg with nextServer := cfg.nextServer + 1 } m cfg1)
    (h0 : array 0 = cfg.nextReserve)
    (hfin : cfg1.finishServer budgets cfg.nextServer array last = some cfg') :
    Outcome budgets id cfg m last cfg' := by
  have hfr := linkServer_frame cfg1 budgets cfg.nextServer array
  obtain ⟨cfg2, hla, rfl⟩ := map_eq_some_iff.mp hfin
  have hsv : (cfg1.linkServer budgets cfg.nextServer array).server cfg.nextServer =
      { currReserve := cfg.nextReserve, firstReserve := cfg.nextReserve
        firstCpuWantsIpi := false } := by
    rw [hfr.server, ← h0]
    exact update_self _ _ _
  have hre : ∀ i < m,
      ((cfg1.linkServer budgets cfg.nextServer array).reserve (cfg.nextReserve + i)).unlinked =
        { server := some cfg.nextServer, budget := (budgets i).budget
          cpu := (budgets i).cpu.toNat, npsfId := id, nextNpsf := none } := by
    intro i hi
    refine (hfr.reserve _).trans ?_
    exact congrArg NpsfReserve.unlinked (h.reserve i hi)
  have holder : ∀ r < cfg.nextReserve,
      ((cfg1.linkServer budgets cfg.nextServer array).reserve r).unlinked =
        (cfg.reserve r).unlinked := by
    intro r hr
    exact (hfr.reserve r).trans (congrArg NpsfReserve.unlinked (h.older r hr))
  have hli : ∀ c : Fin n, ((cfg1.linkServer budgets cfg.nextServer array).entry c).npsfReserves =
        (cfg.entry c).npsfReserves ++
          ((List.range m).filter fun i => (budgets i).cpu.toNat == c).map
            (cfg.nextReserve + ·) := by
    intro c
    rw [hfr.entry]
    exact h.appended c
  cases last with
  | false =>
    cases hla
    exact ⟨fun i hi => (h.listed i hi).2, hre, holder, hli,
      congrArg ServerReserves.firstReserve hsv,
      fun _ => congrArg ServerReserves.currReserve hsv, fun h => (by cases h)⟩
  | true =>
    obtain ⟨hsd, -⟩ := enablePlugin_spec hla
    have hhe : ∀ c, headServer { cfg2 with reservesAllocated := true } c =
        headServer (cfg1.linkServer budgets cfg.nextServer array) c := by
      intro c
      change (cfg2.entry c).npsfReserves.head?.bind (fun r => (cfg2.reserve r).server) = _
      rw [hsd.lists, hsd.reserve]
      rfl
    refine ⟨fun i hi => (h.listed i hi).2, fun i hi => ?_, fun r hr => ?_, fun c => ?_, ?_,
      fun h => (by cases h), fun _ => ?_⟩
    · change (cfg2.reserve _).unlinked = _
      rw [hsd.reserve]
      exact hre i hi
    · change (cfg2.reserve _).unlinked = _
      rw [hsd.reserve]
      exact holder r hr
    · exact (hsd.lists c).trans (hli c)
    · exact (hsd.firstReserve _).trans (congrArg ServerReserves.firstReserve hsv)
    rcases hsd.currReserve cfg.nextServer with ⟨hn, hs⟩ | ⟨c, -, hc, hsrv, hmax⟩
    · refine .inl ⟨fun c => ?_, hs.trans (congrArg ServerReserves.currReserve hsv)⟩
      rw [hhe]
      exact hn c (List.mem_finRange c)
    refine .inr ⟨c, ?_, (hhe c).trans hsrv, fun c' hc' => ?_⟩
    · exact (congrArg List.head? (hsd.lists c)).trans hc
    exact hmax c' (List.mem_finRange c') ((hhe c').symm.trans hc')

/-- A call that returns 0 has added a reserve for each entry up to the first `NO_CPU`. -/
theorem outcome_of_call (h : cfg.sysAddServer abi env id user last = some (0, cfg')) :
    ∃ m, 0 < m ∧ Outcome (abi.kernelBudgets n user env.beyond) id cfg m last cfg' ∧
      (∀ i < m, (abi.kernelBudgets n user env.beyond i).cpu ≠ NO_CPU) ∧
      (m = n ∨ m < n ∧ (abi.kernelBudgets n user env.beyond m).cpu = NO_CPU) := by
  rcases sysAddServer_cases h with ⟨-, -, hneg⟩ | ⟨-, failed, added, cfg1, hloo, -, hok⟩
  · exact absurd hneg (by decide)
  obtain ⟨m, -, hen⟩ := addReserves_spec (i := 0) (Added.refl _) (zero_add n) rfl hloo
  cases failed with
  | true => exact absurd (hen.error rfl) (by decide)
  | false =>
    have hm : 0 < m := by
      apply Nat.pos_of_ne_zero
      intro h0
      have hre := (hen.done rfl).1
      rw [if_pos h0] at hre
      exact absurd hre (by decide)
    refine ⟨m, hm, ?_, fun i hi => (hen.added.listed i hi).1, (hen.done rfl).2⟩
    have h0 : added.getD 0 (env.stack 0) = cfg.nextReserve := by
      obtain ⟨m, rfl⟩ : ∃ m', m = m' + 1 := ⟨m - 1, by omega⟩
      rw [hen.array, newReserves, List.range_succ_eq_map]
      rfl
    exact hen.added.outcome h0 (hok rfl)

/-! ### The current reserve -/

def Distinct (m : Nat) (budgets : Nat → NpsfBudgets) : Prop :=
  ∀ i < m, ∀ j < m, (budgets i).cpu.toNat = (budgets j).cpu.toNat → i = j

variable {m : Nat}

section

variable (h : Outcome budgets id cfg m last cfg')

include h

theorem Outcome.head_new (hdi : Distinct m budgets)
    {c : Fin n} (hem : (cfg.entry c).npsfReserves = []) {i : Nat} (hi : i < m)
    (hc : (budgets i).cpu.toNat = c) :
    (cfg'.entry c).npsfReserves.head? = some (cfg.nextReserve + i) ∧
      headServer cfg' c = some cfg.nextServer := by
  have hm : i ∈ (List.range m).filter fun i => (budgets i).cpu.toNat == c := by
    simp [hi, hc]
  obtain ⟨j, hj⟩ : ∃ j, ((List.range m).filter fun i => (budgets i).cpu.toNat == c).head? =
      some j := isSome_iff_exists.mp (List.isSome_head?.mpr (List.ne_nil_of_mem hm))
  have hjm := List.mem_of_head? hj
  simp only [List.mem_filter, List.mem_range, beq_iff_eq] at hjm
  obtain rfl : j = i := hdi j hjm.1 i hi (hjm.2.trans hc.symm)
  have hhe : (cfg'.entry c).npsfReserves.head? = some (cfg.nextReserve + j) := by
    rw [h.lists, hem, List.nil_append, List.head?_map, hj]
    rfl
  refine ⟨hhe, ?_⟩
  rw [headServer, hhe]
  exact congrArg NpsfReserve.server (h.reserve j hi)

theorem Outcome.of_head_new (hwf : WellFormed cfg)
    {c : Fin n} (hhe : headServer cfg' c = some cfg.nextServer) :
    (cfg.entry c).npsfReserves = [] ∧ ∃ i < m, (budgets i).cpu.toNat = c := by
  rw [headServer, h.lists] at hhe
  rcases hold : (cfg.entry c).npsfReserves with _ | ⟨r, rs⟩
  · refine ⟨rfl, ?_⟩
    rw [hold, List.nil_append, List.head?_map] at hhe
    obtain ⟨r, hr, -⟩ := bind_eq_some_iff.mp hhe
    obtain ⟨i, hi, -⟩ := map_eq_some_iff.mp hr
    have hm := List.mem_of_head? hi
    simp only [List.mem_filter, List.mem_range, beq_iff_eq] at hm
    exact ⟨i, hm⟩
  -- an older reserve has an older server
  obtain ⟨hlt, srv, hsrv, heq⟩ := hwf c r (hold ▸ List.mem_cons_self)
  rw [hold] at hhe
  have hsv := NpsfReserve.server_of_unlinked (h.older r hlt)
  have hnw : (cfg'.reserve r).server = some cfg.nextServer := hhe
  rw [hsv, heq] at hnw
  exact absurd (some.inj hnw) (ne_of_lt hsrv)

theorem Outcome.curr_iff (hm : 0 < m) (hwf : WellFormed cfg) (hdi : Distinct m budgets) :
    (cfg'.server cfg.nextServer).currReserve = cfg.nextReserve ↔
      (last = true → FirstStays cfg m budgets) := by
  cases last with
  | false => exact iff_of_true (h.curr rfl) (fun h => by cases h)
  | true =>
    have hadd : ∀ {i}, cfg.nextReserve + i = cfg.nextReserve → i = 0 := fun heq =>
      add_left_cancel (heq.trans (add_zero _).symm)
    constructor
    · intro hcu _ i hp hi c c0 hc hc0 hem
      obtain ⟨-, hnw⟩ := h.head_new hdi hem hi hc
      rcases h.started rfl with ⟨hn, -⟩ | ⟨c1, hhead1, hsrv1, hma⟩
      · exact absurd hnw (hn c)
      obtain ⟨hempty1, i1, hi1, hc1⟩ := h.of_head_new hwf hsrv1
      obtain ⟨hfi, -⟩ := h.head_new hdi hempty1 hi1 hc1
      rw [hhead1, hcu] at hfi
      obtain rfl := hadd (some.inj hfi).symm
      obtain rfl : c1 = c0 := Fin.ext (hc1.symm.trans hc0)
      refine ⟨hempty1, lt_of_le_of_ne (hma c hnw) ?_⟩
      rintro rfl
      exact absurd (hdi i hi 0 hm (hc.trans hc0.symm)) (ne_of_gt hp)
    intro hsta
    rcases h.started rfl with ⟨-, hcu⟩ | ⟨c, hhea, hsrv, hma⟩
    · exact hcu
    obtain ⟨hem, i, hi, hc⟩ := h.of_head_new hwf hsrv
    obtain ⟨hfi, -⟩ := h.head_new hdi hem hi hc
    rw [hhea] at hfi
    rcases Nat.eq_zero_or_pos i with rfl | hp
    · exact some.inj hfi
    obtain ⟨hempty0, hlt⟩ := hsta rfl i hp hi c ⟨_, h.listed 0 hm⟩ hc rfl hem
    obtain ⟨-, hnw⟩ := h.head_new hdi hempty0 hm rfl
    exact absurd (hma _ hnw) (not_le_of_gt hlt)

/-! ### The caller's entries -/

theorem Outcome.filter_new (c : Fin n) :
    ((newReserves cfg m).filter fun r => (cfg'.reserve r).cpu == c) =
      ((List.range m).filter fun i => (budgets i).cpu.toNat == c).map (cfg.nextReserve + ·) := by
  rw [newReserves, List.filter_map]
  congr 1
  apply List.filter_congr
  intro i hi
  have hc : (cfg'.reserve (cfg.nextReserve + i)).cpu = (budgets i).cpu.toNat :=
    congrArg NpsfReserve.cpu (h.reserve i (List.mem_range.mp hi))
  rw [comp_apply, hc]

end

/-- The new reserves, if they are those of the entries and the server is at its first one. -/
theorem Outcome.installed {es : Nat → NpsfBudgets} (h : Outcome budgets id cfg m last cfg')
    (hm : 0 < m) (hs : ∀ i < m, budgets i = es i)
    (hcur : (cfg'.server cfg.nextServer).currReserve = cfg.nextReserve) :
    Installed cfg cfg' id m es cfg.nextServer (newReserves cfg m) where
  length := length_newReserves cfg m
  nodup := List.nodup_range.map (fun _ _ heq => add_left_cancel heq)
  reserve i r hr := by
    rw [newReserves, List.getElem?_map] at hr
    obtain ⟨j, hj, rfl⟩ := map_eq_some_iff.mp hr
    obtain ⟨hlt, rfl⟩ := List.getElem?_eq_some_iff.mp hj
    rw [List.getElem_range]
    rw [List.length_range] at hlt
    rw [h.reserve i hlt, hs i hlt]
  lists c := (h.lists c).trans (congrArg _ (h.filter_new c).symm)
  first := by
    obtain ⟨m, rfl⟩ : ∃ m', m = m' + 1 := ⟨m - 1, by omega⟩
    rw [h.first, newReserves, List.range_succ_eq_map]
    rfl
  curr := hcur.trans h.first.symm

theorem Installed.mem_iff {es : Nat → NpsfBudgets} {k : Nat} {srv : ServerId} {rs : List ReserveId}
    (h : Outcome budgets id cfg m last cfg') (hin : Installed cfg cfg' id k es srv rs)
    (honl : ∀ i < k, (es i).cpu.toNat < n) (r : ReserveId) : r ∈ rs ↔ r ∈ newReserves cfg m := by
  have hfil : ∀ c : Fin n, (rs.filter fun r => (cfg'.reserve r).cpu == c) =
      (newReserves cfg m).filter fun r => (cfg'.reserve r).cpu == c := by
    intro c
    rw [h.filter_new]
    exact List.append_cancel_left ((hin.lists c).symm.trans (h.lists c))
  have hbo : ∀ c : Fin n, (cfg'.reserve r).cpu = c → (r ∈ rs ↔ r ∈ newReserves cfg m) := by
    intro c hc
    have hm : r ∈ (rs.filter fun r => (cfg'.reserve r).cpu == c) ↔
        r ∈ (newReserves cfg m).filter fun r => (cfg'.reserve r).cpu == c := by
      rw [hfil c]
    simpa [List.mem_filter, hc] using hm
  constructor
  · intro hr
    obtain ⟨i, hi⟩ := List.mem_iff_getElem?.mp hr
    have hlt : i < k := hin.length ▸ (List.getElem?_eq_some_iff.mp hi).1
    have hcp := congrArg NpsfReserve.cpu (hin.reserve i r hi)
    exact (hbo ⟨_, honl i hlt⟩ hcp).mp hr
  intro hr
  obtain ⟨i, hi, rfl⟩ := List.mem_map.mp hr
  have hlt := List.mem_range.mp hi
  have hcp := congrArg NpsfReserve.cpu (h.reserve i hlt)
  exact (hbo ⟨_, h.listed i hlt⟩ hcp).mpr hr

end

/-- A call that returns 0 installs what the caller passed if and only if the last entry is copied
    and, if the call enables the plugin, the server stays at its first reserve. -/
theorem npsf_add_server_installs_iff {n k : Nat} {abi : Abi} {env : CallEnv}
    {cfg cfg' : NpsfConfig n} {id : Int} {es : Nat → NpsfBudgets} {last : Bool}
    (hwf : WellFormed cfg) (hlisted : Listed n k es) (honline : ∀ i < k, (es i).cpu.toNat < n)
    (hdistinct : Distinct k es)
    (h : cfg.sysAddServer abi env id (abi.array es) last = some (0, cfg')) :
    (∃ srv rs, Installed cfg cfg' id k es srv rs) ↔
      SeenWhole abi n k es ∧ (last = true → FirstStays cfg k es) := by
  obtain ⟨m, hm, hout, hcpus, hstop⟩ := outcome_of_call h
  have hle := hlisted.le
  have hmn : m ≤ n := by omega
  -- an entry that is seen has its CPU
  have hseen : ∀ i < m, i < k ∧
      (abi.kernelBudgets n (abi.array es) env.beyond i).cpu = (es i).cpu := by
    intro i hi
    have hcpu := hcpus i hi
    rw [cpu_kernelBudgets (lt_of_lt_of_le hi hmn)] at hcpu ⊢
    split at hcpu
    · rename_i hcopied
      refine ⟨?_, if_pos hcopied⟩
      by_contra hge
      exact hcpu (hlisted.rest i (Nat.le_of_not_lt hge) (lt_of_lt_of_le hi hmn))
    exact absurd rfl hcpu
  have hdistinct' : Distinct m (abi.kernelBudgets n (abi.array es) env.beyond) := by
    intro i hi j hj heq
    rw [(hseen i hi).2, (hseen j hj).2] at heq
    exact hdistinct i (hseen i hi).1 j (hseen j hj).1 heq
  have hcurr := hout.curr_iff hm hwf hdistinct'
  constructor
  · rintro ⟨srv, rs, hinst⟩
    have hmem := hinst.mem_iff hout honline
    obtain rfl : k = m := by
      have hperm := (List.perm_ext_iff_of_nodup hinst.nodup
        (List.nodup_range.map (fun _ _ heq => add_left_cancel heq))).mpr hmem
      rw [← hinst.length, hperm.length_eq]
      exact length_newReserves cfg m
    have hentry : ∀ i < k, srv = cfg.nextServer ∧
        abi.kernelBudgets n (abi.array es) env.beyond i = es i := by
      intro i hi
      have hr : cfg.nextReserve + i ∈ rs :=
        (hmem _).mpr (List.mem_map_of_mem (List.mem_range.mpr hi))
      obtain ⟨j, hj⟩ := List.mem_iff_getElem?.mp hr
      have hjk : j < k := hinst.length ▸ (List.getElem?_eq_some_iff.mp hj).1
      have heq := (hinst.reserve j _ hj).symm.trans (hout.reserve i hi)
      simp only [NpsfReserve.mk.injEq, some.injEq] at heq
      obtain ⟨hsrv, hbudget, hcpu, -, -⟩ := heq
      rw [(hseen i hi).2] at hcpu
      obtain rfl := hdistinct j hjk i hi hcpu
      exact ⟨hsrv, NpsfBudgets.ext (hseen j hi).2 hbudget.symm⟩
    obtain ⟨rfl, -⟩ := hentry 0 hm
    refine ⟨(seenWhole_iff hlisted).mpr fun i hi => (hentry i hi).2, fun hlast => ?_⟩
    have hstays := hcurr.mp (hinst.curr.trans hout.first) hlast
    exact hstays.congr fun i hi => (hentry i hi).2
  · rintro ⟨hwhole, hstays⟩
    have hs := (@seenWhole_iff abi n k es env.beyond hlisted).mp hwhole
    obtain rfl : m = k := by
      have hlt := (hseen (m - 1) (by omega)).1
      rcases hstop with rfl | ⟨hmn, hn⟩
      · omega
      by_contra hne
      rw [hs m (by omega)] at hn
      exact hlisted.cpu m (by omega) hn
    refine ⟨_, _, hout.installed hm hs (hcurr.mpr fun hlast => ?_)⟩
    exact (hstays hlast).congr fun i hi => (hs i hi).symm

/-- On four CPUs, a server with two reserves after one with a single reserve. -/
theorem npsf_add_server_installs_iff_second :
    ∃ cfg cfg', (init 4).sysAddServer .x86_64 (calmEnv 4) 0 (Abi.x86_64.array (evenBudgets 1))
        false = some (0, cfg) ∧
      cfg.sysAddServer .x86_64 (calmEnv 4) 1 (Abi.x86_64.array (evenBudgets 2)) false =
        some (0, cfg') ∧
      ∃ srv rs, Installed cfg cfg' 1 2 (evenBudgets 2) srv rs := by
  obtain ⟨cfg, cfg', hfirst, hsecond⟩ : ∃ cfg cfg',
      (init 4).sysAddServer .x86_64 (calmEnv 4) 0 (Abi.x86_64.array (evenBudgets 1)) false =
        some (0, cfg) ∧
      cfg.sysAddServer .x86_64 (calmEnv 4) 1 (Abi.x86_64.array (evenBudgets 2)) false =
        some (0, cfg') := ⟨_, _, rfl, rfl⟩
  refine ⟨cfg, cfg', hfirst, hsecond, ?_⟩
  refine (npsf_add_server_installs_iff ((wellFormed_init 4).call hfirst)
    ⟨by decide, by decide, by decide, by decide⟩ (by decide) ?_ hsecond).mpr
    ⟨⟨by decide, .inl (by decide), .inl (by decide)⟩, fun h => by cases h⟩
  unfold Distinct
  decide

/-- On two CPUs only the first of two entries is copied. -/
theorem npsf_add_server_truncates :
    ∃ cfg', (init 2).sysAddServer .x86_64 (calmEnv 2) 1 (Abi.x86_64.array (evenBudgets 2)) false =
        some (0, cfg') ∧
      (cfg'.entry 0).npsfReserves = [0] ∧ (cfg'.entry 1).npsfReserves = [] :=
  ⟨_, rfl, rfl, rfl⟩

end Litmus.Npsf
