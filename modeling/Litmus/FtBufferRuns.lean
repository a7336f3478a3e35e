import Litmus.FtBufferInvariant
import Litmus.Runs

/-!
# Records are delivered in order

The reader returns the records in the order of their claims, each once and as its writer
left it.  The conditions on the parameters are needed: without them a slot is given away
twice, or `ft_buffer_finish_write` divides by zero.
-/

namespace Litmus.FtBuffer

open Census Runs SlotRing Function List

namespace State

variable {N : Nat} {cfg : Config} {st st' : State N} {w : Fin N}

/-! ### Reading -/

variable {data dest : List Byte}

theorem Inv.of_reader (h : Inv cfg st) {slots : Nat → SlotState} {pc : Reader} {readIdx : BitVec 32}
    (hrin : Sound cfg.count
      (State.ring cfg { st with slots := slots, reader := pc, readIdx := readIdx }))
    (hreadIdx : readIdx = BitVec.ofNat 32 (st.delivered.length + pc.advanced))
    (hrea : st.ReaderOk cfg pc) :
    Inv cfg { st with slots := slots, reader := pc, readIdx := readIdx } where
  ring := hrin
  writeIdx := h.writeIdx
  readIdx := hreadIdx
  freeCount := h.freeCount
  room := h.room
  writers v := (h.writers v).congr rfl
  reader := hrea.congr rfl id
  delivered := h.delivered
  failed := h.failed

theorem Inv.move (h : Inv cfg st) {pc : Reader} (hfre : pc.freed = st.reader.freed)
    (hadv : pc.advanced = st.reader.advanced) (hrea : st.ReaderOk cfg pc) :
    Inv cfg { st with reader := pc } := by
  refine h.of_reader ?_ ?_ hrea
  · convert h.ring using 1
    simp only [State.ring, hfre]
    rfl
  rw [hadv]
  exact h.readIdx

theorem cell_eq_ready {i : Nat} (hce : st.cell cfg i = .ready data) :
    st.slots i = .ready ∧ data = st.region cfg.size (i * cfg.size) := by
  unfold cell SlotState.cell at hce
  split at hce
  · cases hce
  · cases hce
  rename_i hs
  cases hce
  exact ⟨hs, rfl⟩

section

variable (h : Inv cfg st)
include h

theorem Inv.oldest (hfre : st.reader.freed = 0) (hdat : st.record st.delivered.length = some data) :
    st.slots (st.delivered.length % cfg.count) = .ready ∧
      data = st.region cfg.size (st.delivered.length % cfg.count * cfg.size) := by
  apply cell_eq_ready
  apply (h.ring.recorded hdat).2
  simp only [State.ring, hfre]
  exact le_rfl

theorem Inv.testSlot (hr : st.reader = .testing)
    (hx : st.exec cfg .testSlot = some st') : Inv cfg st' := by
  simp only [exec, hr] at hx
  cases hx
  have hid : (st.readIdx % cfg.slotCount).toNat = st.delivered.length % cfg.count := by
    rw [h.readIdx, hr]
    exact cfg.toNat_index _
  split
  · rename_i hrd
    apply h.move
    · rw [hr]
      rfl
    · rw [hr]
      rfl
    refine ⟨hid, Nat.zero_le _, ?_⟩
    have hcel : (st.ring cfg).cell ((st.ring cfg).first % cfg.count) =
        .ready (st.region cfg.size (st.delivered.length % cfg.count * cfg.size)) := by
      rw [hid] at hrd
      simp only [State.ring, hr, Reader.freed, Nat.add_zero, cell, hrd]
      rfl
    have hre := h.ring.recorded_of_ready cfg.count_spec.1 hcel
    simp only [State.ring, hr, Reader.freed, Nat.add_zero] at hre
    exact ⟨_, hre, by simp⟩
  · apply h.move
    · rw [hr]
      rfl
    · rw [hr]
      rfl
    trivial

theorem Inv.copyByte {idx : BitVec 32} (hf : Fits cfg N)
    (hr : st.reader = .copying idx dest) (hx : st.exec cfg .copyByte = some st') : Inv cfg st' := by
  obtain ⟨hid, hlen, data, hda, hdes⟩ : st.ReaderOk cfg (.copying idx dest) := by
    have hok := h.reader
    rw [hr] at hok
    exact hok
  obtain ⟨-, hre⟩ := h.oldest (by rw [hr]; rfl) hda
  have hptr : (idx * cfg.slotSize).toNat = st.delivered.length % cfg.count * cfg.size := by
    rw [← hid]
    apply hf.toNat_ptr
    rw [hid]
    exact Nat.mod_lt _ cfg.count_spec.1
  simp only [exec, hr] at hx
  split at hx
  · rename_i hle
    cases hx
    have hless' : dest.length < data.length := by
      rw [hre]
      simp only [region, length_map, length_range]
      exact hle
    have hbyt : data[dest.length] = st.bufferMem ((idx * cfg.slotSize).toNat + dest.length) := by
      rw [hptr]
      simp [hre, region]
    apply h.move
    · rw [hr]
      rfl
    · rw [hr]
      rfl
    refine ⟨hid, ?_, data, hda, ?_⟩
    · rw [length_append, length_singleton]
      exact hle
    rw [length_append, length_singleton, take_succ_eq_append_getElem hless', ← hdes, hbyt]
  cases hx

theorem Inv.freeSlot {idx : BitVec 32} (hr : st.reader = .copying idx dest)
    (hx : st.exec cfg .freeSlot = some st') : Inv cfg st' := by
  obtain ⟨hidx, hlen, data, hda, hdes⟩ : st.ReaderOk cfg (.copying idx dest) := by
    have hok := h.reader
    rw [hr] at hok
    exact hok
  obtain ⟨hrd, hrg⟩ := h.oldest (by rw [hr]; rfl) hda
  have hfi : (st.ring cfg).first = st.delivered.length := by
    simp [State.ring, hr, Reader.freed]
  simp only [exec, hr] at hx
  split at hx
  · cases hx
  rename_i hall
  cases hx
  have hful : data.length ≤ dest.length := by
    rw [hrg]
    simp only [region, length_map, length_range]
    exact not_lt.mp hall
  have hcel : (st.ring cfg).cell ((st.ring cfg).first % cfg.count) = .ready data := by
    rw [hfi, hrg]
    simp only [State.ring, cell, hrd]
    rfl
  refine h.of_reader ?_ ?_ ?_
  · convert h.ring.free cfg.count_spec.1 hcel using 1
    simp only [State.ring, Ring.free, hr, Reader.freed, add_zero, setSlot]
    congr 1
    rw [hidx]
    exact cell_update .free rfl rfl
  · have hre := h.readIdx
    rw [hr] at hre
    exact hre
  unfold ReaderOk
  rw [hda, hdes, take_of_length_le hful]

theorem Inv.advance (hr : st.reader = .advancing dest)
    (hx : st.exec cfg .advance = some st') : Inv cfg st' := by
  have hok := h.reader
  rw [hr] at hok
  simp only [exec, hr] at hx
  cases hx
  refine h.of_reader ?_ ?_ hok
  · convert h.ring using 1
    simp only [State.ring, hr, Reader.freed]
    rfl
  rw [h.readIdx, hr, ofNat_add_one]
  rfl

theorem Inv.finishRead (hr : st.reader = .returning dest)
    (hx : st.exec cfg .finishRead = some st') : Inv cfg st' := by
  have hok := h.reader
  rw [hr] at hok
  simp only [exec, hr] at hx
  cases hx
  have hle : (st.delivered ++ [dest]).length = st.delivered.length + 1 := length_append
  constructor
  · convert h.ring using 1
    simp only [State.ring, hr, Reader.freed, hle]
    rfl
  · exact h.writeIdx
  · simp only [hle, Reader.advanced]
    rw [h.readIdx, hr]
    rfl
  · simp only [level, hle, h.freeCount, ofInt_add_one]
    congr 1
    simp only [granted, refused]
    push_cast
    omega
  · have hroo := h.room
    simp only [hle, granted] at hroo ⊢
    omega
  · exact fun v => (h.writers v).congr rfl
  · trivial
  · intro k hk
    by_cases hla : k = st.delivered.length
    · subst hla
      simp only [getElem_concat_length]
      exact hok
    have hk' : k < st.delivered.length := by
      simp only [hle] at hk
      omega
    simp only [getElem_append_left hk']
    exact h.delivered k hk'
  · exact h.failed

end

/-! ### Runs -/

theorem Inv.init (mem : Nat → Byte) : Inv cfg (State.init cfg mem : State N) := by
  have h0 : ∀ {p : Writer → Bool}, p .idle = false →
      census p (State.init cfg mem : State N).writer = 0 := fun hp =>
    census_eq_zero fun _ => hp
  have hg : (State.init cfg mem : State N).granted = 0 := h0 rfl
  have hr : (State.init cfg mem : State N).refused = 0 := h0 rfl
  have hl : (State.init cfg mem : State N).failing = 0 := h0 rfl
  constructor
  · constructor
    · exact Nat.le_refl 0
    · exact Nat.zero_le _
    · intro w k hw
      cases hw
    · intro w k hw
      cases hw
    · intro v w k a b hv
      cases hv
    · intro k hk
      exact absurd hk (Nat.not_lt_zero k)
    · intro k data hk
      cases hk
    · exact fun _ _ => rfl
  · rfl
  · rfl
  · simp only [level, hg, hr]
    have hlev : (cfg.count : Int) + ((State.init cfg mem : State N).delivered.length : Int) -
        ((State.init cfg mem : State N).claims : Int) - ((0 : Nat) : Int) - ((0 : Nat) : Int) =
        (cfg.count : Int) := by
      simp [State.init]
    rw [hlev, BitVec.ofInt_natCast]
    simp [State.init, Config.count]
  · rw [hg]
    exact Nat.zero_le _
  · exact fun _ => trivial
  · trivial
  · intro k hk
    exact absurd hk (Nat.not_lt_zero k)
  · exact ⟨0, rfl, by rw [hr, hl]; rfl⟩

theorem Inv.step {op : Op N} (h : Inv cfg st) (hf : Fits cfg N) (hs : Step cfg st op st') :
    Inv cfg st' := by
  have hx : st.exec cfg op = some st' := hs
  have hdu := hx
  cases op with
  | startWrite w =>
    cases hw : st.writer w <;> simp only [exec, hw, reduceCtorEq] at hdu
    exact h.startWrite hf hw hx
  | claim w =>
    cases hw : st.writer w <;> simp only [exec, hw, reduceCtorEq] at hdu
    exact h.claim hw hx
  | markBusy w =>
    cases hw : st.writer w <;> simp only [exec, hw, reduceCtorEq] at hdu
    exact h.markBusy hf hw hx
  | undo w =>
    cases hw : st.writer w <;> simp only [exec, hw, reduceCtorEq] at hdu
    exact h.undo hw hx
  | fail w =>
    cases hw : st.writer w <;> simp only [exec, hw, reduceCtorEq] at hdu
    exact h.fail hw hx
  | store w off b =>
    cases hw : st.writer w <;> simp only [exec, hw, reduceCtorEq] at hdu
    exact h.store hw hx
  | finishWrite w =>
    cases hw : st.writer w <;> simp only [exec, hw, reduceCtorEq] at hdu
    exact h.finishWrite hf hw hx
  | startRead =>
    cases hr : st.reader <;> simp only [exec, hr, reduceCtorEq] at hx
    cases hx
    split
    · exact h
    apply h.move
    · rw [hr]
      rfl
    · rw [hr]
      rfl
    trivial
  | testSlot =>
    cases hr : st.reader <;> simp only [exec, hr, reduceCtorEq] at hdu
    exact h.testSlot hr hx
  | copyByte =>
    cases hr : st.reader <;> simp only [exec, hr, reduceCtorEq] at hdu
    exact h.copyByte hf hr hx
  | freeSlot =>
    cases hr : st.reader <;> simp only [exec, hr, reduceCtorEq] at hdu
    exact h.freeSlot hr hx
  | advance =>
    cases hr : st.reader <;> simp only [exec, hr, reduceCtorEq] at hdu
    exact h.advance hr hx
  | finishRead =>
    cases hr : st.reader <;> simp only [exec, hr, reduceCtorEq] at hdu
    exact h.finishRead hr hx

/-! ### What the reader and the writers can rely on -/

theorem Inv.freeCount_ne (h : Inv cfg st) (hf : Fits cfg N)
    (hmor : st.delivered.length < st.claims) : st.freeCount ≠ cfg.slotCount := by
  have hle := count_le hf.count_lt
  have hwri := hf.writers
  have hroo := h.room
  have href : st.refused ≤ N := by
    have hcar := census_le_card Writer.isRefused st.writer
    rwa [Fintype.card_fin] at hcar
  intro heq
  rw [h.freeCount] at heq
  have hna := congrArg BitVec.toInt heq
  have hco : cfg.slotCount.toInt = cfg.count := by
    rw [BitVec.toInt_eq_toNat_of_lt]
    · rfl
    unfold Config.count at hle
    omega
  rw [hco, BitVec.toInt_ofInt, Int.bmod_def] at hna
  unfold level at hna
  split at hna <;> omega

theorem Inv.finds (h : Inv cfg st) (hf : Fits cfg N)
    (hda : st.record st.delivered.length = some data) :
    (∀ st', st.reader = .idle → Step cfg st .startRead st' → st'.reader = .testing) ∧
    (∀ st', st.reader = .testing → Step cfg st .testSlot st' →
      ∃ idx, st'.reader = .copying idx []) ∧ ∀ dest, st.reader = .returning dest → dest = data := by
  refine ⟨?_, ?_, ?_⟩
  · intro st' hr hs
    have hne := h.freeCount_ne hf (h.ring.recorded hda).1
    have hx : st.exec cfg .startRead = some st' := hs
    simp only [exec, hr, if_neg hne] at hx
    cases hx
    rfl
  · intro st' hr hs
    obtain ⟨hrd, -⟩ := h.oldest (by rw [hr]; rfl) hda
    have hidx : (st.readIdx % cfg.slotCount).toNat = st.delivered.length % cfg.count := by
      rw [h.readIdx, hr]
      exact cfg.toNat_index _
    have hx : st.exec cfg .testSlot = some st' := hs
    simp only [exec, hr, hidx, if_pos hrd] at hx
    cases hx
    exact ⟨_, rfl⟩
  intro dest hr
  have hok := h.reader
  rw [hr] at hok
  exact Option.some.inj (hok.symm.trans hda)

theorem finishes {ptr : BitVec 32} {k : Nat} (hf : Fits cfg N)
    (hw : st.writer w = .writing ptr k data) :
    ∃ st', Step cfg st (.finishWrite w) st' ∧ st'.record k = some data := by
  have hsiz : cfg.slotSize ≠ 0 := by
    intro h0
    have hp := hf.size_pos
    rw [Config.size, h0] at hp
    exact absurd hp (lt_irrefl 0)
  refine ⟨{ st.setSlot (ptr / cfg.slotSize) .ready with
    record := update st.record k (some data) }.setWriter w .idle, ?_, ?_⟩
  · simp only [Step, exec, hw, if_neg hsiz]
  exact update_self _ _ _

structure Lossless (cfg : Config) (st : State N) : Prop where
  /-- the reads have returned the first records, in the order of the claims -/
  fifo : ∀ k (hk : k < st.delivered.length), st.record k = some st.delivered[k]
  /-- a writer can finish, and its record is what it has stored -/
  finish : ∀ w ptr k data, st.writer w = .writing ptr k data →
    ∃ st', Step cfg st (.finishWrite w) st' ∧ st'.record k = some data
  /-- once the next record is finished, a read returns it -/
  read : ∀ data, st.record st.delivered.length = some data →
    (∀ st', st.reader = .idle → Step cfg st .startRead st' → st'.reader = .testing) ∧
    (∀ st', st.reader = .testing → Step cfg st .testSlot st' →
      ∃ idx, st'.reader = .copying idx []) ∧
    ∀ dest, st.reader = .returning dest → dest = data
  /-- when a slot is about to be claimed, its previous record has been read -/
  reuse : ∀ w, st.writer w = .granted → st.claims < st.delivered.length + cfg.count
  /-- a refused write is counted, or its writer is on the way to count it -/
  refused : ∃ f, st.failedWrites = BitVec.ofNat 32 f ∧ st.refusals = f + st.refused + st.failing

theorem Inv.lossless (h : Inv cfg st) (hf : Fits cfg N) : Lossless cfg st where
  fifo := h.delivered
  finish _ _ _ _ hw := finishes hf hw
  read _ hdat := h.finds hf hdat
  reuse w hw := by
    have hp : 0 < st.granted := census_pos (i := w) (by rw [hw]; rfl)
    have hroo := h.room
    omega
  refused := h.failed

end State

open State (ring init exec setWriter)

/-- For slots that hold something and at most `2 ^ 31 + 1` writers, whatever the
    interleaving, the buffer is lossless. -/
theorem ft_buffer_lossless {N : Nat} {cfg : Config} (hfit : Fits cfg N) {mem : Nat → Byte}
    {ops : List (Op N)} {st : State N} (hrun : Run (Step cfg) (init cfg mem) ops st) :
    st.Lossless cfg := by
  have hI : State.Inv cfg st :=
    hrun.invariant (fun _ _ _ hI hs => hI.step hfit hs) (State.Inv.init mem)
  exact hI.lossless hfit

def twoSlots : Config where
  slotCount := 2
  slotSize := 1
  accepted := rfl

/-- The second claim is finished first; the first one is read first. -/
theorem ft_buffer_lossless_out_of_order :
    ∃ st : State 2, Run (Step twoSlots) (init twoSlots fun _ => 0)
      [.startWrite 0, .claim 0, .startWrite 1, .claim 1, .markBusy 1, .store 1 0 34,
        .finishWrite 1, .markBusy 0, .store 0 0 17, .finishWrite 0, .startRead, .testSlot,
        .copyByte, .freeSlot, .advance, .finishRead] st ∧
      st.delivered = [[17]] ∧ st.Lossless twoSlots := by
  have hcheck : ∃ st : State 2, Run (Step twoSlots) (init twoSlots fun _ => 0)
      [.startWrite 0, .claim 0, .startWrite 1, .claim 1, .markBusy 1, .store 1 0 34,
        .finishWrite 1, .markBusy 0, .store 0 0 17, .finishWrite 0, .startRead, .testSlot,
        .copyByte, .freeSlot, .advance, .finishRead] st ∧
      decide (st.delivered = [[17]]) = true :=
    Run.of_check (fun _ _ _ (_ : true = true) hx => hx) (by decide +kernel)
  obtain ⟨st, hrun, hst⟩ := hcheck
  have hfit : Fits twoSlots 2 := by
    constructor <;> decide
  exact ⟨st, hrun, of_decide_eq_true hst, ft_buffer_lossless hfit hrun⟩

/-! ### The conditions are needed -/

def emptySlot : Config where
  slotCount := 1
  slotSize := 0
  accepted := by decide

def oneSlot : Config where
  slotCount := 1
  slotSize := 1
  accepted := by decide

/-- The slot is full and `k` writers are about to give up. -/
def crowd (N k : Nat) : State N where
  freeCount := BitVec.ofInt 32 (-k)
  writeIdx := 1
  readIdx := 0
  slots := update (fun _ => .free) 0 .ready
  bufferMem _ := 0
  failedWrites := 0
  writer w := if w.val < k then .refused else .idle
  reader := .idle
  claims := 1
  record := update (fun _ => none) 0 (some [0])
  delivered := []
  refusals := k

theorem crowd_zero (N : Nat) : Run (Step oneSlot) (init oneSlot fun _ => 0)
      [.startWrite 0, .claim 0, .markBusy 0, .finishWrite 0] (crowd (N + 1) 0) := by
  apply Run.of_execAll (fun _ _ _ (_ : true = true) hx => hx)
  simp [execAll, exec, init, oneSlot, setWriter, State.setSlot, crowd, State.region, BitVec.sle]

theorem crowd_succ {N k : Nat} (hk : k < N) (hle : k ≤ 2 ^ 31) :
    Step oneSlot (crowd N k) (.startWrite ⟨k, hk⟩) (crowd N (k + 1)) := by
  have hidl : (crowd N k).writer ⟨k, hk⟩ = .idle := by simp [crowd]
  have hfr : (crowd N k).freeCount.toInt = -k := toInt_ofInt (by omega) (by omega)
  have hsle : (crowd N k).freeCount.sle 0 = true := by
    simp [BitVec.sle, hfr]
  have hwri : update (crowd N k).writer ⟨k, hk⟩ .refused = (crowd N (k + 1)).writer := by
    funext v
    by_cases hv : v = ⟨k, hk⟩
    · subst hv
      simp [crowd]
    have hne : v.val ≠ k := fun heq => hv (Fin.ext heq)
    have hiff : v.val < k ↔ v.val < k + 1 := by omega
    simp [crowd, update_of_ne hv, hiff]
  have hco : (crowd N k).freeCount - 1 = (crowd N (k + 1)).freeCount := by
    simp only [crowd, ofInt_sub_one]
    congr 1
    push_cast
    omega
  simp only [Step, exec, hidl, hsle, if_true, setWriter, hwri, hco]
  rfl

theorem crowd_run (N : Nat) {k : Nat} (hk : k ≤ N + 1) (hle : k ≤ 2 ^ 31 + 1) :
    ∃ ops, Run (Step oneSlot) (init oneSlot fun _ => 0) ops (crowd (N + 1) k) := by
  induction k with
  | zero => exact ⟨_, crowd_zero N⟩
  | succ k ih =>
    obtain ⟨ops, hr⟩ := ih (by omega) (by omega)
    exact ⟨_, .snoc hr (crowd_succ hk (by omega))⟩

/-- With slots of no bytes a writer cannot finish.  With `2 ^ 31 + 2` writers the last of them
    is granted the only slot while its record is unread. -/
theorem ft_buffer_limits :
    (∃ st : State 1, Run (Step emptySlot) (init emptySlot fun _ => 0)
      [.startWrite 0, .claim 0, .markBusy 0] st ∧
        st.writer 0 = .writing 0 0 [] ∧ (st.exec emptySlot (.finishWrite 0)).isNone) ∧
    ∃ (ops : List (Op (2 ^ 31 + 2))) (st : State (2 ^ 31 + 2)),
      Run (Step oneSlot) (init oneSlot fun _ => 0) ops st ∧
        st.writer ⟨2 ^ 31 + 1, by decide⟩ = .claimed 0 1 ∧ st.slots 0 = .ready ∧
        st.record 0 = some [0] ∧ st.delivered = [] := by
  constructor
  · have hcheck : ∃ st : State 1, Run (Step emptySlot) (init emptySlot fun _ => 0)
        [.startWrite 0, .claim 0, .markBusy 0] st ∧
        decide (st.writer 0 = .writing 0 0 [] ∧
          (st.exec emptySlot (.finishWrite 0)).isNone = true) = true :=
      Run.of_check (fun _ _ _ (_ : true = true) hx => hx) (by decide +kernel)
    obtain ⟨st, hrun, hst⟩ := hcheck
    exact ⟨st, hrun, of_decide_eq_true hst⟩
  obtain ⟨ops, hrun⟩ := crowd_run (2 ^ 31 + 1) (k := 2 ^ 31 + 1) (by omega) (by omega)
  let w : Fin (2 ^ 31 + 2) := ⟨2 ^ 31 + 1, by decide⟩
  let st := crowd (2 ^ 31 + 2) (2 ^ 31 + 1)
  have hidle : st.writer w = .idle := by simp [st, w, crowd]
  have hpos : st.freeCount.sle 0 = false := by decide
  let st₁ := { st with freeCount := st.freeCount - 1 }.setWriter w .granted
  have hstart : Step oneSlot st (.startWrite w) st₁ := by
    simp only [Step, exec, hidle, hpos, Bool.false_eq_true, if_false, st₁]
  have hgranted : st₁.writer w = .granted := by simp [st₁, setWriter]
  let st₂ := { st₁ with writeIdx := st₁.writeIdx + 1, claims := st₁.claims + 1 }.setWriter w
    (.claimed (st₁.writeIdx % oneSlot.slotCount) st₁.claims)
  have hclaim : Step oneSlot st₁ (.claim w) st₂ := by
    simp [Step, exec, hgranted, st₂]
  have hs : st₁.writeIdx % oneSlot.slotCount = 0 := by decide
  have hclaimed : st₂.writer w = .claimed (st₁.writeIdx % oneSlot.slotCount) st₁.claims := by
    simp [st₂, setWriter]
  rw [hs] at hclaimed
  exact ⟨_, st₂, (hrun.snoc hstart).snoc hclaim, hclaimed, rfl, rfl, rfl⟩

end Litmus.FtBuffer
