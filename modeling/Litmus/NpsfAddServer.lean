import Mathlib.Data.List.FinRange
import Litmus.NpsfChain
import Litmus.Runs

/-!
# Adding servers

`sys_add_server` copies an array of budgets from user space and adds a reserve for each entry,
up to the first `NO_CPU`.  What it installs depends on how much of the array is copied, and
what it leaves behind on where it fails.
-/

namespace Litmus.Npsf

open NpsfConfig Function List

/-! ### Adding the reserves -/

section

variable {n : Nat} {env : CallEnv} {budgets : Nat → NpsfBudgets} {srv : ServerId} {npsfId : Int}

/-- The reserves of the entries before `m`, by their place in the array. -/
def newReserves (cfg : NpsfConfig n) (m : Nat) : List ReserveId :=
  (List.range m).map (cfg.nextReserve + ·)

/-- `cfg'` is `cfg` with reserves for the entries before `m`. -/
structure Added (budgets : Nat → NpsfBudgets) (srv : ServerId) (npsfId : Int)
    (cfg : NpsfConfig n) (m : Nat) (cfg' : NpsfConfig n) : Prop where
  nextReserve : cfg'.nextReserve = cfg.nextReserve + m
  nextServer : cfg'.nextServer = cfg.nextServer
  server : cfg'.server = cfg.server
  allServersAdded : cfg'.allServersAdded = cfg.allServersAdded
  listed : ∀ i < m, (budgets i).cpu ≠ NO_CPU ∧ (budgets i).cpu.toNat < n
  reserve : ∀ i < m, cfg'.reserve (cfg.nextReserve + i) =
    { server := some srv, budget := (budgets i).budget, cpu := (budgets i).cpu.toNat
      npsfId := npsfId, nextNpsf := none }
  older : ∀ r < cfg.nextReserve, cfg'.reserve r = cfg.reserve r
  appended : ∀ c : Fin n, (cfg'.entry c).npsfReserves = (cfg.entry c).npsfReserves ++
    ((List.range m).filter fun i => (budgets i).cpu.toNat == c).map (cfg.nextReserve + ·)
  untouched : ∀ c : Fin n, (∀ i < m, (budgets i).cpu.toNat ≠ c) → cfg'.entry c = cfg.entry c

theorem Added.refl (cfg : NpsfConfig n) : Added budgets srv npsfId cfg 0 cfg where
  nextReserve := rfl
  nextServer := rfl
  server := rfl
  allServersAdded := rfl
  listed _ hi := absurd hi (Nat.not_lt_zero _)
  reserve _ hi := absurd hi (Nat.not_lt_zero _)
  older _ _ := rfl
  appended _ := (append_nil _).symm
  untouched _ _ := rfl

/-- `do_add_reserve` refuses the id, finds tasks, or gets no memory. -/
def Rejects (cfg : NpsfConfig n) (rtTaskCount : Nat) (alloc : Bool) (c : Fin n) (npsfId : Int) :
    Prop :=
  npsfId ≤ (cfg.entry c).lastSeenNpsfId ∨ rtTaskCount ≠ 0 ∨ alloc = false

theorem doAddReserve_cases (cfg : NpsfConfig n) (rtTaskCount : Nat) (alloc : Bool) (c : Fin n)
    (srv : ServerId) (npsfId : Int) (budget : LtTime) :
    Rejects cfg rtTaskCount alloc c npsfId ∧
        (∃ e < 0, cfg.doAddReserve rtTaskCount alloc c srv npsfId budget = .error e) ∨
      ¬Rejects cfg rtTaskCount alloc c npsfId ∧
        cfg.doAddReserve rtTaskCount alloc c srv npsfId budget = .ok (cfg.nextReserve,
          { cfg with
            reserve := update cfg.reserve cfg.nextReserve
              { server := some srv, budget := budget, cpu := c, npsfId := npsfId
                nextNpsf := none }
            entry := update cfg.entry c
              { cpuReserve := ((cfg.entry c).npsfReserves ++ [cfg.nextReserve]).head?
                npsfReserves := (cfg.entry c).npsfReserves ++ [cfg.nextReserve]
                lastSeenNpsfId := npsfId }
            nextReserve := cfg.nextReserve + 1 }) := by
  unfold doAddReserve Rejects
  by_cases hid : npsfId ≤ (cfg.entry c).lastSeenNpsfId
  · exact .inl ⟨.inl hid, _, by decide, if_pos hid⟩
  by_cases hta : rtTaskCount ≠ 0
  · exact .inl ⟨.inr (.inl hta), -EACCES, by decide, by rw [if_neg hid, if_pos hta]⟩
  cases alloc with
  | false =>
    exact .inl ⟨.inr (.inr rfl), -ENOMEM, by decide, by
      rw [if_neg hid, if_neg hta]; rfl⟩
  | true =>
    refine .inr ⟨?_, by rw [if_neg hid, if_neg hta]; rfl⟩
    rintro (h | h | h)
    · exact hid h
    · exact hta h
    cases h

theorem Added.succ {cfg cfg1 cfg' : NpsfConfig n} {m : Nat} {new : ReserveId} {count : Nat}
    {alloc : Bool} (h : Added budgets srv npsfId cfg m cfg1) (hcpu : (budgets m).cpu ≠ NO_CPU)
    (hon : (budgets m).cpu.toNat < n)
    (had : cfg1.doAddReserve count alloc ⟨_, hon⟩ srv npsfId (budgets m).budget =
      .ok (new, cfg')) : new = cfg.nextReserve + m ∧ Added budgets srv npsfId cfg (m + 1) cfg' := by
  rcases doAddReserve_cases cfg1 count alloc ⟨_, hon⟩ srv npsfId (budgets m).budget with
    ⟨-, e, -, herr⟩ | ⟨-, hok⟩
  · rw [herr] at had
    cases had
  rw [hok] at had
  obtain ⟨rfl, rfl⟩ := had
  refine ⟨h.nextReserve, ?_⟩
  constructor
  · exact (congrArg (· + 1) h.nextReserve).trans (add_assoc _ _ _)
  · exact h.nextServer
  · exact h.server
  · exact h.allServersAdded
  · intro i hi
    rcases Nat.lt_succ_iff_lt_or_eq.mp hi with hi | rfl
    · exact h.listed i hi
    exact ⟨hcpu, hon⟩
  · intro i hi
    rcases Nat.lt_succ_iff_lt_or_eq.mp hi with hi | rfl
    · have hne : cfg.nextReserve + i ≠ cfg1.nextReserve := by
        rw [h.nextReserve]
        exact ne_of_lt (Nat.add_lt_add_left hi _)
      exact (update_of_ne hne _ _).trans (h.reserve i hi)
    rw [← h.nextReserve]
    exact update_self _ _ _
  · intro r hr
    have hne : r ≠ cfg1.nextReserve := by
      rw [h.nextReserve]
      exact ne_of_lt (lt_of_lt_of_le hr (Nat.le_add_right _ _))
    exact (update_of_ne hne _ _).trans (h.older r hr)
  · intro c
    rw [range_succ, filter_append, map_append, ← append_assoc, ← h.appended c]
    by_cases hc : c = ⟨_, hon⟩
    · subst hc
      simp [h.nextReserve]
    have hval : ¬(budgets m).cpu.toNat = c := fun heq => hc (Fin.ext heq.symm)
    simp [hc, hval]
  · intro c hc
    have hne : c ≠ ⟨_, hon⟩ := fun heq => hc m (Nat.lt_succ_self m) (congrArg Fin.val heq).symm
    exact (update_of_ne hne _ _).trans (h.untouched c fun i hi => hc i (Nat.lt_succ_of_lt hi))

theorem newReserves_succ (cfg : NpsfConfig n) (m : Nat) :
    newReserves cfg (m + 1) = newReserves cfg m ++ [cfg.nextReserve + m] := by
  rw [newReserves, range_succ, map_append]
  rfl

theorem length_newReserves (cfg : NpsfConfig n) (m : Nat) : (newReserves cfg m).length = m := by
  rw [newReserves, length_map, length_range]

/-- How the loop ends: by an error, at an entry without a CPU, or after `n` entries.  `m` is the
    number of reserves added before. -/
structure LoopEnd (budgets : Nat → NpsfBudgets) (srv : ServerId) (npsfId : Int)
    (cfg : NpsfConfig n) (m : Nat) (failed : Bool) (ret : Int) (array : List ReserveId)
    (cfg' : NpsfConfig n) : Prop where
  added : Added budgets srv npsfId cfg m cfg'
  array : array = newReserves cfg m
  error : failed = true → ret < 0
  done : failed = false →
    ret = (if m = 0 then -EFAULT else 0) ∧ (m = n ∨ m < n ∧ (budgets m).cpu = NO_CPU)

theorem addReserves_spec {fuel i : Nat} {ret ret' : Int} {array' : List ReserveId}
    {cfg cfg1 cfg' : NpsfConfig n} {failed : Bool} (had : Added budgets srv npsfId cfg i cfg1)
    (hfue : i + fuel = n) (hre : ret = if i = 0 then -EFAULT else 0)
    (h : addReserves env budgets srv npsfId fuel ret (newReserves cfg i) cfg1 =
      some (failed, ret', array', cfg')) :
    ∃ m, i ≤ m ∧ LoopEnd budgets srv npsfId cfg m failed ret' array' cfg' := by
  induction fuel generalizing i ret cfg1 with
  | zero =>
    obtain ⟨rfl, rfl, rfl, rfl⟩ := h
    exact ⟨i, le_refl i, had, rfl, fun h => (by cases h), fun _ => ⟨hre, .inl hfue⟩⟩
  | succ fuel ih =>
    simp only [addReserves, length_newReserves] at h
    split at h
    · rename_i hn
      obtain ⟨rfl, rfl, rfl, rfl⟩ := h
      exact ⟨i, le_refl i, had, rfl, fun h => (by cases h),
        fun _ => ⟨hre, .inr ⟨by omega, hn⟩⟩⟩
    rename_i hc
    split at h
    · rename_i hon
      split at h
      · rename_i e her
        simp only [Option.some.injEq, Prod.mk.injEq] at h
        obtain ⟨rfl, rfl, rfl, rfl⟩ := h
        refine ⟨i, le_refl i, had, rfl, fun _ => ?_, fun h => (by cases h)⟩
        rcases doAddReserve_cases cfg1 (env.rtTaskCount i) (env.reserveAlloc i) ⟨_, hon⟩
          srv npsfId (budgets i).budget with ⟨-, e', he', herr'⟩ | ⟨-, hok⟩
        · rw [herr'] at her
          cases her
          exact he'
        rw [hok] at her
        cases her
      rename_i new cfg2 hok
      obtain ⟨rfl, hadded'⟩ := had.succ hc hon hok
      rw [← newReserves_succ] at h
      obtain ⟨m, him, hend⟩ := ih hadded' (by omega) rfl h
      exact ⟨m, Nat.le_of_succ_le him, hend⟩
    cases h

end

/-! ### Enabling the plugin -/

section

variable {n : Nat} {cfg cfg' : NpsfConfig n}

/-- The server of the first reserve on a CPU. -/
def headServer (cfg : NpsfConfig n) (c : Fin n) : Option ServerId :=
  (cfg.entry c).npsfReserves.head?.bind fun r => (cfg.reserve r).server

/-- The CPUs in `done` have been started with their first reserves.  A server's current reserve
    is then the one on the last of these CPUs where it comes first. -/
structure Started (cfg : NpsfConfig n) (done : List (Fin n)) (cfg' : NpsfConfig n) : Prop where
  nextReserve : cfg'.nextReserve = cfg.nextReserve
  nextServer : cfg'.nextServer = cfg.nextServer
  reserve : cfg'.reserve = cfg.reserve
  started : ∀ c ∈ done, cfg'.entry c =
    { cfg.entry c with cpuReserve := (cfg.entry c).npsfReserves.head? }
  untouched : ∀ c ∉ done, cfg'.entry c = cfg.entry c
  firstReserve : ∀ srv, (cfg'.server srv).firstReserve = (cfg.server srv).firstReserve
  currReserve : ∀ srv, (∀ c ∈ done, headServer cfg c ≠ some srv) ∧
        (cfg'.server srv).currReserve = (cfg.server srv).currReserve ∨
      ∃ c ∈ done, (cfg.entry c).npsfReserves.head? = some (cfg'.server srv).currReserve ∧
        headServer cfg c = some srv ∧ ∀ c' ∈ done, headServer cfg c' = some srv → c' ≤ c

theorem Started.lists {done : List (Fin n)} (h : Started cfg done cfg') (c : Fin n) :
    (cfg'.entry c).npsfReserves = (cfg.entry c).npsfReserves := by
  by_cases hc : c ∈ done
  · rw [h.started c hc]
  rw [h.untouched c hc]

theorem Started.step {cfg1 : NpsfConfig n} {done : List (Fin n)} {c : Fin n}
    (h : Started cfg done cfg1) (hnew : c ∉ done) (hla : ∀ c' ∈ done, c' ≤ c)
    (hsa : cfg1.startWithFirst c = some cfg') : Started cfg (done ++ [c]) cfg' := by
  obtain ⟨first, hfi, hsa⟩ := Option.bind_eq_some_iff.mp hsa
  obtain ⟨srv, hsr, hsa⟩ := Option.bind_eq_some_iff.mp hsa
  cases hsa
  rw [h.lists] at hfi
  rw [h.reserve] at hsr
  have hhe : headServer cfg c = some srv := by
    rw [headServer, hfi]
    exact hsr
  constructor
  · exact h.nextReserve
  · exact h.nextServer
  · exact h.reserve
  · intro c' hc'
    by_cases heq : c' = c
    · subst heq
      refine (update_self _ _ _).trans ?_
      change { cfg1.entry c' with cpuReserve := some first } = _
      rw [h.untouched c' hnew, hfi]
    · refine (update_of_ne heq _ _).trans (h.started c' ?_)
      simpa [heq] using hc'
  · intro c' hc'
    rw [mem_append, mem_singleton, not_or] at hc'
    exact (update_of_ne hc'.2 _ _).trans (h.untouched c' hc'.1)
  · intro s
    change (update cfg1.server srv _ s).firstReserve = _
    by_cases heq : s = srv
    · subst heq
      rw [update_self]
      exact h.firstReserve s
    rw [update_of_ne heq]
    exact h.firstReserve s
  · intro s
    by_cases heq : s = srv
    · -- this CPU is the last one so far where the server comes first
      subst heq
      refine .inr ⟨c, by simp, ?_, hhe, ?_⟩
      · change _ = some (update cfg1.server s _ s).currReserve
        rw [update_self]
        exact hfi
      intro c' hc' _
      rcases mem_append.mp hc' with hc' | hc'
      · exact hla c' hc'
      exact le_of_eq (mem_singleton.mp hc')
    · have ho : headServer cfg c ≠ some s := by
        rw [hhe]
        exact fun hs => heq (Option.some.inj hs).symm
      have hcu : (update cfg1.server srv
          { cfg1.server srv with currReserve := first } s).currReserve =
            (cfg1.server s).currReserve := by
        rw [update_of_ne heq]
      rcases h.currReserve s with ⟨hn, hsam⟩ | ⟨c1, hc1, hfirst1, hhead1, hmax⟩
      · refine .inl ⟨fun c' hc' => ?_, hcu.trans hsam⟩
        rcases mem_append.mp hc' with hc' | hc'
        · exact hn c' hc'
        rw [mem_singleton.mp hc']
        exact ho
      refine .inr ⟨c1, mem_append_left _ hc1, hfirst1.trans (congrArg some hcu.symm),
        hhead1, fun c' hc' hhead' => ?_⟩
      rcases mem_append.mp hc' with hc' | hc'
      · exact hmax c' hc' hhead'
      rw [mem_singleton.mp hc'] at hhead'
      exact absurd hhead' ho

theorem enablePlugin_spec (h : cfg.enablePlugin = some cfg') :
    Started cfg (finRange n) cfg' ∧ cfg'.allServersAdded = true := by
  obtain ⟨cfg1, hloo, rfl⟩ := Option.map_eq_some_iff.mp h
  have hsd : Started cfg (finRange n) cfg1 := by
    refine Runs.foldlM_invariant (P := Started cfg) (fun before c after s t hsp hs hste => ?_)
      ?_ hloo
    · have hso : (before ++ c :: after).Pairwise (· < ·) := by
        rw [← hsp]
        exact pairwise_lt_finRange n
      have hlt : ∀ c' ∈ before, c' < c := fun c' hc' =>
        (pairwise_append.mp hso).2.2 c' hc' c (mem_cons_self ..)
      exact hs.step (fun hc => lt_irrefl c (hlt c hc)) (fun c' hc' => le_of_lt (hlt c' hc')) hste
    exact ⟨rfl, rfl, rfl, fun c hc => (by cases hc), fun _ _ => rfl, fun _ => rfl,
      fun _ => .inl ⟨fun c hc => (by cases hc), rfl⟩⟩
  exact ⟨⟨hsd.nextReserve, hsd.nextServer, hsd.reserve, hsd.started,
    hsd.untouched, hsd.firstReserve, hsd.currReserve⟩, rfl⟩

end

/-! ### Calls that fail -/

def CallEnv.Reaches (env : CallEnv) (n : Nat) : Prop :=
  env.numOnlineCpus = n ∧ env.idFault = false ∧ env.budgetsFault = false ∧ env.serverAlloc = true

/-- The first entry names a CPU, and its reserve is rejected. -/
def FirstRejected {n : Nat} (env : CallEnv) (budgets : Nat → NpsfBudgets) (npsfId : Int)
    (cfg : NpsfConfig n) : Prop :=
  (budgets 0).cpu ≠ NO_CPU ∧ ∀ h : (budgets 0).cpu.toNat < n,
      Rejects cfg (env.rtTaskCount 0) (env.reserveAlloc 0) ⟨_, h⟩ npsfId

def NpsfConfig.visible {n : Nat} (cfg : NpsfConfig n) : (Fin n → CpuEntry) × Bool :=
  (cfg.entry, cfg.allServersAdded)

def Enabled {n : Nat} (cfg : NpsfConfig n) : Prop :=
  cfg.allServersAdded = true ∧ ∀ c, (cfg.entry c).cpuReserve = (cfg.entry c).npsfReserves.head?

section

variable {n : Nat} {abi : Abi} {env : CallEnv} {budgets : Nat → NpsfBudgets} {srv : ServerId}
  {npsfId : Int} {user : Nat → Word} {last failed : Bool} {ret : Int} {array : List ReserveId}
  {cfg cfg' : NpsfConfig n}

theorem addReserves_first (hn : 0 < n)
    (h : addReserves env budgets srv npsfId n (-EFAULT) [] cfg = some (failed, ret, array, cfg')) :
    ∃ m, LoopEnd budgets srv npsfId cfg m failed ret array cfg' ∧
      (m = 0 ↔ (budgets 0).cpu = NO_CPU ∨ FirstRejected env budgets npsfId cfg) ∧
      ((budgets 0).cpu = NO_CPU → failed = false) ∧
      (FirstRejected env budgets npsfId cfg → failed = true) := by
  obtain ⟨fuel, rfl⟩ : ∃ fuel, n = fuel + 1 := ⟨n - 1, by omega⟩
  have h0 : newReserves cfg 0 = [] := rfl
  obtain ⟨m, -, hen⟩ := addReserves_spec (Added.refl cfg) (zero_add (fuel + 1)) rfl (h0 ▸ h)
  have hm : array.length = m := by
    rw [hen.array, length_newReserves]
  refine ⟨m, hen, ?_⟩
  simp only [addReserves, length_nil] at h
  split at h
  · -- no CPU
    rename_i hno
    obtain ⟨rfl, rfl, rfl, rfl⟩ := h
    exact ⟨iff_of_true hm.symm (.inl hno), fun _ => rfl, fun hre => absurd hno hre.1⟩
  rename_i hc
  split at h
  · rename_i hon
    rcases doAddReserve_cases cfg (env.rtTaskCount 0) (env.reserveAlloc 0) ⟨_, hon⟩ srv
      npsfId (budgets 0).budget with ⟨hre, e, -, herr⟩ | ⟨hacc, hok⟩
    · -- rejected
      rw [herr] at h
      obtain ⟨rfl, rfl, rfl, rfl⟩ := h
      exact ⟨iff_of_true hm.symm (.inr ⟨hc, fun _ => hre⟩), fun hno => absurd hno hc,
        fun _ => rfl⟩
    -- accepted
    have hnt : ¬FirstRejected env budgets npsfId cfg := fun hre => hacc (hre.2 hon)
    obtain ⟨-, hadd⟩ := (Added.refl cfg).succ hc hon hok
    rw [hok] at h
    obtain ⟨m', hm', hend'⟩ := addReserves_spec hadd (add_comm 1 fuel) rfl h
    have hlen : array.length = m' := by
      rw [hend'.array, length_newReserves]
    exact ⟨iff_of_false (by omega) (not_or.mpr ⟨hc, hnt⟩), fun hno => absurd hno hc,
      fun hre => absurd hre hnt⟩
  cases h

/-- The three parts of a call: it fails before its loops, in the first one, or not at all. -/
theorem sysAddServer_cases (h : cfg.sysAddServer abi env npsfId user last = some (ret, cfg')) :
    ¬env.Reaches n ∧ cfg' = cfg ∧ ret < 0 ∨ env.Reaches n ∧ ∃ failed added cfg1,
        addReserves env (abi.kernelBudgets n user env.beyond) cfg.nextServer npsfId n (-EFAULT) []
            { cfg with nextServer := cfg.nextServer + 1 } = some (failed, ret, added, cfg1) ∧
        (failed = true → cfg' = cfg1) ∧
        (failed = false → cfg1.finishServer (abi.kernelBudgets n user env.beyond) cfg.nextServer
            (fun i => added.getD i (env.stack i)) last = some cfg') := by
  unfold sysAddServer at h
  unfold CallEnv.Reaches
  split at h
  · rename_i hea
    cases h
    refine .inl ⟨fun hr => ?_, rfl, by decide⟩
    simp [hr.1, hr.2.1] at hea
  rename_i hea
  simp only [ne_eq, Bool.or_eq_true, decide_eq_true_eq, not_or, not_not, Bool.not_eq_true] at hea
  split at h
  · cases h
  split at h
  · rename_i hfu
    cases h
    exact .inl ⟨fun hr => by simp [hr.2.2.1] at hfu, rfl, by decide⟩
  rename_i hfu
  split at h
  · rename_i hse
    cases h
    exact .inl ⟨fun hr => by simp [hr.2.2.2] at hse, rfl, by decide⟩
  rename_i hse
  refine .inr ⟨⟨hea.1, hea.2, by simpa using hfu, by simpa using hse⟩, ?_⟩
  obtain ⟨⟨failed, ret', added, cfg1⟩, hlo, h⟩ := Option.bind_eq_some_iff.mp h
  dsimp only at h
  split at h
  · rename_i hfa
    cases h
    exact ⟨failed, added, cfg', hlo, fun _ => rfl, fun hok => by simp [hok] at hfa⟩
  rename_i hok
  obtain ⟨cfg2, hfin, h⟩ := Option.bind_eq_some_iff.mp h
  cases h
  exact ⟨failed, added, cfg1, hlo, fun hfa => absurd hfa hok, fun _ => hfin⟩

theorem linkServer_frame (cfg : NpsfConfig n) (budgets : Nat → NpsfBudgets) (srv : ServerId)
    (array : Nat → ReserveId) :
    SameButNext (cfg.setServer srv
        { currReserve := array 0, firstReserve := array 0, firstCpuWantsIpi := false })
      (cfg.linkServer budgets srv array) :=
  SameButNext.foldl _ _

theorem visible_finishServer {array : Nat → ReserveId}
    (h : cfg.finishServer budgets srv array last = some cfg') :
    cfg'.visible = cfg.visible ↔ (last = true → Enabled cfg) := by
  have hfr := linkServer_frame cfg budgets srv array
  have hen : (cfg.linkServer budgets srv array).entry = cfg.entry := hfr.entry
  have hadd := hfr.allServersAdded
  obtain ⟨cfg2, hla, rfl⟩ := Option.map_eq_some_iff.mp h
  cases last with
  | false =>
    cases hla
    exact iff_of_true (Prod.ext hen hadd) (fun h => by cases h)
  | true =>
    obtain ⟨hsd, hon⟩ := enablePlugin_spec hla
    have hne : ∀ c, cfg2.entry c =
        { cfg.entry c with cpuReserve := (cfg.entry c).npsfReserves.head? } := by
      intro c
      rw [hsd.started c (mem_finRange c), hen]
    constructor
    · intro hs _
      refine ⟨(congrArg Prod.snd hs).symm.trans hon, fun c => ?_⟩
      have hc : cfg2.entry c = cfg.entry c := congrFun (congrArg Prod.fst hs) c
      rw [← hc, hne c]
    intro hena
    obtain ⟨honc, hhea⟩ := hena rfl
    refine Prod.ext (funext fun c => ?_) (hon.trans honc.symm)
    refine (hne c).trans ?_
    rw [← hhea c]
    rfl

theorem Added.visible_eq (h : Added budgets srv npsfId cfg 0 cfg') : cfg'.visible = cfg.visible :=
  Prod.ext (funext fun c => h.untouched c fun _ hi => absurd hi (Nat.not_lt_zero _))
    h.allServersAdded

theorem Added.visible_ne {m : Nat} (h : Added budgets srv npsfId cfg m cfg') (hm : 0 < m) :
    cfg'.visible ≠ cfg.visible := by
  intro hs
  have hent : cfg'.entry = cfg.entry := congrArg Prod.fst hs
  have hli := h.appended ⟨_, (h.listed 0 hm).2⟩
  rw [hent] at hli
  have hme : 0 ∈ (range m).filter fun i =>
      (budgets i).cpu.toNat == (budgets 0).cpu.toNat := by
    simpa using hm
  have hnil := map_eq_nil_iff.mp (self_eq_append_right.mp hli)
  rw [hnil] at hme
  cases hme

end

/-- A call that fails changes nothing if and only if it fails before it has added a reserve, and
    an array without any entry does not enable the plugin. -/
theorem npsf_add_server_atomic_iff {n : Nat} {abi : Abi} {env : CallEnv} {cfg cfg' : NpsfConfig n}
    {id ret : Int} {user : Nat → Word} {last : Bool} (hn : 0 < n)
    (h : cfg.sysAddServer abi env id user last = some (ret, cfg')) (hret : ret < 0) :
    cfg'.visible = cfg.visible ↔ (env.Reaches n →
        FirstRejected env (abi.kernelBudgets n user env.beyond) id cfg ∨
          (abi.kernelBudgets n user env.beyond 0).cpu = NO_CPU ∧ (last = true → Enabled cfg)) := by
  rcases sysAddServer_cases h with ⟨hnot, rfl, -⟩ | ⟨hreaches, failed, added, cfg₁, hloop, herr, hok⟩
  · exact iff_of_true rfl (fun hreaches => absurd hreaches hnot)
  obtain ⟨m, hend, hfirst, hnone, hrej⟩ := addReserves_first hn hloop
  cases failed with
  | true =>
    obtain rfl := herr rfl
    rcases Nat.eq_zero_or_pos m with rfl | hm
    · refine iff_of_true hend.added.visible_eq (fun _ => ?_)
      rcases hfirst.mp rfl with hempty | hfirst
      · exact absurd (hnone hempty) (by decide)
      · exact .inl hfirst
    refine iff_of_false (hend.added.visible_ne hm) (fun hatomic => ?_)
    have h0 : m = 0 := by
      rcases hatomic hreaches with hfirst' | ⟨hempty, -⟩
      · exact hfirst.mpr (.inr hfirst')
      · exact hfirst.mpr (.inl hempty)
    omega
  | false =>
    obtain rfl : m = 0 := by
      by_contra hm
      rw [(hend.done rfl).1, if_neg hm] at hret
      exact absurd hret (by decide)
    have hempty : (abi.kernelBudgets n user env.beyond 0).cpu = NO_CPU := by
      rcases hfirst.mp rfl with hempty | hfirst
      · exact hempty
      · exact absurd (hrej hfirst) (by decide)
    have hs : cfg₁.visible = cfg.visible := hend.added.visible_eq
    have hentry : cfg₁.entry = cfg.entry := congrArg Prod.fst hs
    have hadded : cfg₁.allServersAdded = cfg.allServersAdded := congrArg Prod.snd hs
    have henabled : Enabled cfg₁ ↔ Enabled cfg := by
      rw [Enabled, Enabled, hentry, hadded]
    rw [← hs, visible_finishServer (hok rfl), henabled]
    constructor
    · exact fun hlast _ => .inr ⟨hempty, hlast⟩
    intro hatomic
    rcases hatomic hreaches with hfirst | ⟨-, hlast⟩
    · exact absurd (hrej hfirst) (by decide)
    · exact hlast

def calmEnv (n : Nat) : CallEnv where
  numOnlineCpus := n
  idFault := false
  budgetsFault := false
  budgetsAlloc := true
  serverAlloc := true
  reserveAlloc _ := true
  rtTaskCount _ := 0
  beyond _ := 0
  stack _ := 0

/-- A server with an id that is too small is rejected at its first entry. -/
theorem npsf_add_server_atomic_iff_small_id :
    ∃ cfg', (init 2).sysAddServer .x86_64 (calmEnv 2) (-1) (Abi.x86_64.array (evenBudgets 1))
        false = some (-EINVAL, cfg') ∧ cfg'.visible = (init 2).visible := by
  obtain ⟨cfg', hcall⟩ : ∃ cfg', (init 2).sysAddServer .x86_64 (calmEnv 2) (-1)
      (Abi.x86_64.array (evenBudgets 1)) false = some (-EINVAL, cfg') := ⟨_, rfl⟩
  refine ⟨cfg', hcall, (npsf_add_server_atomic_iff (by decide) hcall (by decide)).mpr ?_⟩
  exact fun _ => .inl ⟨by decide, fun _ => .inl (Int.le_refl (-1))⟩

def twiceBudgets (i : Nat) : NpsfBudgets :=
  if i < 2 then { cpu := 0, budget := 50 } else { cpu := NO_CPU, budget := 0 }

/-- The second reserve on a CPU is rejected, and the first one stays without a successor. -/
theorem npsf_add_server_leftover :
    ∃ cfg', (init 4).sysAddServer .x86_64 (calmEnv 4) 1 (Abi.x86_64.array twiceBudgets) false =
        some (-EINVAL, cfg') ∧ (cfg'.entry 0).npsfReserves = [0] ∧
      (cfg'.entry 0).lastSeenNpsfId = 1 ∧ (cfg'.entry 0).cpuReserve = some 0 ∧
      (cfg'.reserve 0).nextNpsf = none :=
  ⟨_, rfl, rfl, rfl, rfl, rfl⟩

end Litmus.Npsf
