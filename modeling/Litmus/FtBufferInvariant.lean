import Litmus.Census
import Litmus.FtBuffer
import Litmus.SlotRing

/-!
# Buffer steps are ring steps

The slots and the memory of the buffer form a ring of records.  `free_count` counts the
slots that are neither claimed nor granted, less the writers that are about to be refused,
so that a writer is granted a slot only if there is a free one.
-/

namespace Litmus.FtBuffer

open Census SlotRing Function Writer
open BitVec (ofNat ofInt)

/-! ### Arithmetic -/

namespace Config

variable (cfg : Config)

def count : Nat := cfg.slotCount.toNat

def size : Nat := cfg.slotSize.toNat

theorem count_spec : 0 < cfg.count ∧ cfg.count ∣ 2 ^ 32 := by
  have hac := cfg.accepted
  unfold initAccepts at hac
  simp only [Bool.not_eq_true', Bool.or_eq_false_iff, beq_eq_false_iff_ne, ne_eq,
    bne_eq_false_iff_eq] at hac
  obtain ⟨hne, hmod⟩ := hac
  have hpo : 0 < cfg.slotCount.toNat := by
    rw [Nat.pos_iff_ne_zero]
    intro h0
    exact hne (BitVec.toNat_inj.mp h0)
  refine ⟨hpo, ?_⟩
  have hnat := congrArg BitVec.toNat hmod
  have hone : (1 : BitVec 32) ≤ cfg.slotCount := by
    exact hpo
  rw [BitVec.toNat_umod, BitVec.toNat_allOnes, BitVec.toNat_sub_of_le hone] at hnat
  have hdiv := Nat.div_add_mod (2 ^ 32 - 1) cfg.slotCount.toNat
  refine ⟨(2 ^ 32 - 1) / cfg.slotCount.toNat + 1, ?_⟩
  have hone' : (1 : BitVec 32).toNat = 1 := rfl
  unfold count
  rw [Nat.mul_add, mul_one]
  omega

theorem toNat_index (k : Nat) : (ofNat 32 k % cfg.slotCount).toNat = k % cfg.count := by
  exact Nat.mod_mod_of_dvd k cfg.count_spec.2

end Config

/-- The conditions on the parameters: the slots can be addressed, a slot holds something, and
    there are not so many writers that `free_count` wraps around. -/
structure Fits (cfg : Config) (N : Nat) : Prop where
  count_lt : cfg.count < 2 ^ 31
  memory : cfg.count * cfg.size < 2 ^ 32
  size_pos : 0 < cfg.size
  writers : N ≤ 2 ^ 31 + 1

section

variable {cfg : Config} {N : Nat}

theorem Fits.toNat_ptr (hfit : Fits cfg N) {idx : BitVec 32} (hidx : idx.toNat < cfg.count) :
    (idx * cfg.slotSize).toNat = idx.toNat * cfg.size := by
  have hle : idx.toNat * cfg.size ≤ cfg.count * cfg.size :=
    Nat.mul_le_mul_right _ (le_of_lt hidx)
  have hm := hfit.memory
  exact Nat.mod_eq_of_lt (by unfold Config.size at *; omega)

theorem Fits.toNat_slot (hfit : Fits cfg N) {ptr : BitVec 32} {i : Nat}
    (hptr : ptr.toNat = i * cfg.size) : (ptr / cfg.slotSize).toNat = i := by
  rw [BitVec.toNat_udiv, hptr]
  exact Nat.mul_div_cancel i hfit.size_pos

theorem count_le (hlt : cfg.count < 2 ^ 31) : cfg.count ≤ 2 ^ 30 := by
  obtain ⟨hpos, c, hc⟩ := cfg.count_spec
  by_contra hgt
  -- between 2 ^ 30 and 2 ^ 31 there is no divisor of 2 ^ 32
  have hc4 : c < 4 := by
    by_contra hge
    have hle : cfg.count * 4 ≤ cfg.count * c := Nat.mul_le_mul_left _ (by omega)
    omega
  have hc2 : 2 < c := by
    by_contra hle
    have hle' : cfg.count * c ≤ cfg.count * 2 := Nat.mul_le_mul_left _ (by omega)
    omega
  have hc3 : c = 3 := by omega
  subst hc3
  omega

end

theorem toInt_ofInt {x : Int} (hlow : -2 ^ 31 ≤ x) (hhig : x < 2 ^ 31) :
    (ofInt 32 x).toInt = x := by
  rw [BitVec.toInt_ofInt, Int.bmod_def]
  split <;> omega

theorem ofInt_add_one (x : Int) : ofInt 32 x + 1 = ofInt 32 (x + 1) := by
  rw [BitVec.ofInt_add]
  rfl

theorem ofInt_sub_one (x : Int) : ofInt 32 x - 1 = ofInt 32 (x - 1) := by
  have had := ofInt_add_one (x - 1)
  rw [Int.sub_add_cancel] at had
  rw [← had, BitVec.add_sub_cancel]

theorem ofNat_add_one (k : Nat) : ofNat 32 k + 1 = ofNat 32 (k + 1) := by
  rw [BitVec.ofNat_add]
  rfl

/-! ### The ring of a buffer -/

def Writer.tenant : Writer → Option (Nat × Bool)
  | .claimed _ k => some (k, false)
  | .writing _ k _ => some (k, true)
  | _ => none

def Writer.isGranted : Writer → Bool
  | .granted => true
  | _ => false

def Writer.isRefused : Writer → Bool
  | .refused => true
  | _ => false

def Writer.isFailing : Writer → Bool
  | .failing => true
  | _ => false

/-- The reader has freed a slot and not yet returned. -/
def Reader.freed : Reader → Nat
  | .advancing _ => 1
  | .returning _ => 1
  | _ => 0

/-- The reader has incremented `read_idx` and not yet returned. -/
def Reader.advanced : Reader → Nat
  | .returning _ => 1
  | _ => 0

def SlotState.cell (data : List Byte) : SlotState → Cell (List Byte)
  | .free => .free
  | .busy => .busy data
  | .ready => .ready data

namespace State

variable {N : Nat}

def cell (cfg : Config) (st : State N) (i : Nat) : Cell (List Byte) :=
  (st.slots i).cell (st.region cfg.size (i * cfg.size))

def ring (cfg : Config) (st : State N) : Ring (Fin N) (List Byte) where
  first := st.delivered.length + st.reader.freed
  next := st.claims
  cell := st.cell cfg
  tenant w := (st.writer w).tenant
  record := st.record

/-- The writers that have been granted a slot and not claimed one. -/
def granted (st : State N) : Nat := census Writer.isGranted st.writer

def refused (st : State N) : Nat := census Writer.isRefused st.writer

def failing (st : State N) : Nat := census Writer.isFailing st.writer

/-- The value of `free_count`, were it not to wrap around. -/
def level (cfg : Config) (st : State N) : Int :=
  cfg.count + st.delivered.length - st.claims - st.granted - st.refused

def WriterOk (cfg : Config) (st : State N) : Writer → Prop
  | .claimed idx k => idx.toNat = k % cfg.count
  | .writing ptr k data => ptr.toNat = k % cfg.count * cfg.size ∧
      data = st.region cfg.size (k % cfg.count * cfg.size)
  | _ => True

def ReaderOk (cfg : Config) (st : State N) : Reader → Prop
  | .copying idx dest => idx.toNat = st.delivered.length % cfg.count ∧ dest.length ≤ cfg.size ∧
      ∃ data, st.record st.delivered.length = some data ∧ dest = data.take dest.length
  | .advancing dest => st.record st.delivered.length = some dest
  | .returning dest => st.record st.delivered.length = some dest
  | _ => True

structure Inv (cfg : Config) (st : State N) : Prop where
  ring : Sound cfg.count (st.ring cfg)
  writeIdx : st.writeIdx = BitVec.ofNat 32 st.claims
  readIdx : st.readIdx = BitVec.ofNat 32 (st.delivered.length + st.reader.advanced)
  freeCount : st.freeCount = BitVec.ofInt 32 (st.level cfg)
  room : st.claims + st.granted ≤ st.delivered.length + cfg.count
  writers : ∀ w, st.WriterOk cfg (st.writer w)
  reader : st.ReaderOk cfg st.reader
  delivered : ∀ k (hk : k < st.delivered.length), st.record k = some st.delivered[k]
  /-- a refused write has been counted, or its writer is on the way to count it -/
  failed : ∃ f, st.failedWrites = BitVec.ofNat 32 f ∧ st.refusals = f + st.refused + st.failing

section

variable {cfg : Config} {st st' : State N} {w : Fin N} {pc : Writer} {k off : Nat} {b : Byte}

theorem region_congr (hm : st'.bufferMem = st.bufferMem) (size start : Nat) :
    st'.region size start = st.region size start := by
  unfold region
  rw [hm]

theorem cell_congr (hslo : st'.slots = st.slots) (hm : st'.bufferMem = st.bufferMem) :
    st'.cell cfg = st.cell cfg := by
  funext i
  unfold cell
  rw [hslo, region_congr hm]

theorem cell_update {i : Nat} (slot : SlotState) (hslo : st'.slots = update st.slots i slot)
    (hm : st'.bufferMem = st.bufferMem) :
    st'.cell cfg = update (st.cell cfg) i (slot.cell (st.region cfg.size (i * cfg.size))) := by
  funext j
  unfold cell
  rw [hslo, region_congr hm]
  by_cases hj : j = i
  · subst hj
    simp
  simp [update_of_ne hj]

theorem tenant_update (f : Fin N → Writer) (pc : Writer) :
    (fun v => (update f w pc v).tenant) = update (fun v => (f v).tenant) w pc.tenant := by
  funext v
  by_cases hv : v = w
  · subst hv
    simp
  simp [update_of_ne hv]

theorem tenant_update_none {f : Fin N → Writer} (hpc : pc.tenant = none)
    (hw : (f w).tenant = none) : (fun v => (update f w pc v).tenant) = fun v => (f v).tenant := by
  rw [tenant_update, hpc, ← hw]
  exact update_eq_self _ _

theorem WriterOk.congr (h : st.WriterOk cfg pc) (hm : st'.bufferMem = st.bufferMem) :
    st'.WriterOk cfg pc := by
  cases pc with
  | writing ptr k data =>
    obtain ⟨hptr, hdat⟩ := h
    exact ⟨hptr, by rw [region_congr hm]; exact hdat⟩
  | _ => exact h

theorem writers_update (h : ∀ v, st.WriterOk cfg (st.writer v))
    (hm : st'.bufferMem = st.bufferMem) (hwri : st'.writer = update st.writer w pc)
    (hpc : st'.WriterOk cfg pc) : ∀ v, st'.WriterOk cfg (st'.writer v) := by
  intro v
  rw [hwri]
  by_cases hv : v = w
  · subst hv
    rw [update_self]
    exact hpc
  rw [update_of_ne hv]
  exact (h v).congr hm

theorem ReaderOk.congr {pc : Reader} (h : st.ReaderOk cfg pc) (hde : st'.delivered = st.delivered)
    (hre : ∀ {k data}, st.record k = some data → st'.record k = some data) :
    st'.ReaderOk cfg pc := by
  cases pc with
  | copying idx dest =>
    obtain ⟨hidx, hlen, data, hdat, hdes⟩ := h
    unfold ReaderOk
    rw [hde]
    exact ⟨hidx, hlen, data, hre hdat, hdes⟩
  | advancing dest =>
    unfold ReaderOk
    rw [hde]
    exact hre h
  | returning dest =>
    unfold ReaderOk
    rw [hde]
    exact hre h
  | _ => trivial

/-! ### Starting to write -/

theorem Inv.delivered_le (h : Inv cfg st) : st.delivered.length ≤ st.claims :=
  le_trans (Nat.le_add_right _ _) h.ring.first_le

theorem Inv.toInt_freeCount (h : Inv cfg st) (hfi : Fits cfg N) (hw : st.writer w = .idle) :
    st.freeCount.toInt = st.level cfg := by
  have hles : st.refused < Fintype.card (Fin N) := census_lt_card (i := w) (by rw [hw]; rfl)
  rw [Fintype.card_fin] at hles
  have hroo := h.room
  have hdel := h.delivered_le
  have hco := hfi.count_lt
  have hwri := hfi.writers
  rw [h.freeCount]
  apply toInt_ofInt
  · unfold level
    omega
  unfold level
  omega

theorem Inv.of_writer (h : Inv cfg st) (hre : st'.reader = st.reader)
    (hreadIdx : st'.readIdx = st.readIdx) (hde : st'.delivered = st.delivered)
    (hrc : ∀ {k data}, st.record k = some data → st'.record k = some data)
    (hrin : Sound cfg.count (st'.ring cfg)) (hwriteIdx : st'.writeIdx = ofNat 32 st'.claims)
    (hfr : st'.freeCount = ofInt 32 (st'.level cfg))
    (hroo : st'.claims + st'.granted ≤ st.delivered.length + cfg.count)
    (hwri : ∀ v, st'.WriterOk cfg (st'.writer v))
    (hfai : ∃ f, st'.failedWrites = ofNat 32 f ∧
      st'.refusals = f + st'.refused + st'.failing) : Inv cfg st' where
  ring := hrin
  writeIdx := hwriteIdx
  readIdx := by
    rw [hreadIdx, hde, hre]
    exact h.readIdx
  freeCount := hfr
  room := by
    rw [hde]
    exact hroo
  writers := hwri
  reader := by
    rw [hre]
    exact h.reader.congr hde hrc
  delivered := by
    intro k hk
    simp only [hde] at hk ⊢
    exact hrc (h.delivered k hk)
  failed := hfai

theorem ring_congr (hrea : st'.reader = st.reader) (hdel : st'.delivered = st.delivered)
    (hcla : st'.claims = st.claims) (hslo : st'.slots = st.slots)
    (hm : st'.bufferMem = st.bufferMem) (hrec : st'.record = st.record)
    (hten : (fun v => (st'.writer v).tenant) = fun v => (st.writer v).tenant) :
    st'.ring cfg = st.ring cfg := by
  unfold ring
  rw [hrea, hdel, hcla, hrec, cell_congr hslo hm, hten]

theorem counts_update {old : Writer} (hw : st.writer w = old) (pc : Writer) :
    (census isGranted (update st.writer w pc) + (if old.isGranted then 1 else 0) =
      census isGranted st.writer + (if pc.isGranted then 1 else 0)) ∧
    (census isRefused (update st.writer w pc) + (if old.isRefused then 1 else 0) =
      census isRefused st.writer + (if pc.isRefused then 1 else 0)) ∧
    census isFailing (update st.writer w pc) + (if old.isFailing then 1 else 0) =
      census isFailing st.writer + (if pc.isFailing then 1 else 0) := by
  subst hw
  exact ⟨census_update _ _ _ _, census_update _ _ _ _, census_update _ _ _ _⟩

section

variable (h : Inv cfg st)
include h

theorem Inv.startWrite (hfit : Fits cfg N) (hw : st.writer w = .idle)
    (hx : st.exec cfg (.startWrite w) = some st') : Inv cfg st' := by
  have hlev := h.toInt_freeCount hfit hw
  have hroo := h.room
  have hte : (st.writer w).tenant = none := by rw [hw]; rfl
  obtain ⟨f, hf, hre⟩ := h.failed
  simp only [exec, hw] at hx
  split at hx
  · cases hx
    obtain ⟨hg, hr, hl⟩ := counts_update hw .refused
    simp only [isGranted, isRefused, isFailing, Bool.false_eq_true,
      if_false, if_true, add_zero] at hg hr hl
    refine h.of_writer rfl rfl rfl id ?_ ?_ ?_ ?_ ?_ ?_
    · convert h.ring using 1
      exact ring_congr rfl rfl rfl rfl rfl rfl (tenant_update_none rfl hte)
    · exact h.writeIdx
    · simp only [setWriter, level, granted, refused, hg, hr, h.freeCount, ofInt_sub_one]
      congr 1
      omega
    · simp only [setWriter, granted, hg]
      exact hroo
    · exact writers_update h.writers rfl rfl trivial
    · refine ⟨f, hf, ?_⟩
      simp only [setWriter, refused, failing, hr, hl]
      simp only [refused, failing] at hre
      omega
  rename_i hpos
  cases hx
  obtain ⟨hg, hr, hl⟩ := counts_update hw .granted
  simp only [isGranted, isRefused, isFailing, Bool.false_eq_true,
    if_false, if_true, add_zero] at hg hr hl
  have hlvl : 0 < st.level cfg := by
    rw [← hlev]
    simpa [BitVec.sle] using hpos
  refine h.of_writer rfl rfl rfl id ?_ ?_ ?_ ?_ ?_ ?_
  · convert h.ring using 1
    exact ring_congr rfl rfl rfl rfl rfl rfl (tenant_update_none rfl hte)
  · exact h.writeIdx
  · simp only [setWriter, level, granted, refused, hg, hr, h.freeCount, ofInt_sub_one]
    congr 1
    omega
  · unfold level granted refused at hlvl
    simp only [setWriter, granted, hg]
    omega
  · exact writers_update h.writers rfl rfl trivial
  · refine ⟨f, hf, ?_⟩
    simp only [setWriter, refused, failing, hr, hl]
    exact hre

theorem Inv.claim (hw : st.writer w = .granted)
    (hx : st.exec cfg (.claim w) = some st') : Inv cfg st' := by
  have hten : (st.writer w).tenant = none := by rw [hw]; rfl
  have hroo := h.room
  have hpos : 0 < st.granted := census_pos (i := w) (by rw [hw]; rfl)
  obtain ⟨f, hf, href⟩ := h.failed
  simp only [exec, hw] at hx
  cases hx
  obtain ⟨hg, hr, hl⟩ := counts_update hw (.claimed (st.writeIdx % cfg.slotCount) st.claims)
  simp only [isGranted, isRefused, isFailing, Bool.false_eq_true,
    if_false, if_true, add_zero] at hg hr hl
  refine h.of_writer rfl rfl rfl id ?_ ?_ ?_ ?_ ?_ ?_
  · have hfr : (st.ring cfg).next < (st.ring cfg).first + cfg.count := by
      simp only [State.ring]
      omega
    convert h.ring.claim hten hfr using 1
    simp only [State.ring, Ring.claim, setWriter, tenant_update]
    rfl
  · simp only [setWriter]
    rw [h.writeIdx, ofNat_add_one]
  · simp only [setWriter, level, granted, refused, hr, h.freeCount]
    congr 1
    omega
  · simp only [setWriter, granted] at hroo ⊢
    omega
  · refine writers_update h.writers rfl rfl ?_
    simp only [WriterOk]
    rw [h.writeIdx, cfg.toNat_index]
  · refine ⟨f, hf, ?_⟩
    simp only [setWriter, refused, failing, hr, hl]
    exact href

/-! ### Giving up -/

theorem Inv.undo (hw : st.writer w = .refused)
    (hx : st.exec cfg (.undo w) = some st') : Inv cfg st' := by
  have hten : (st.writer w).tenant = none := by rw [hw]; rfl
  obtain ⟨f, hf, href⟩ := h.failed
  simp only [exec, hw] at hx
  cases hx
  obtain ⟨hg, hr, hl⟩ := counts_update hw .failing
  simp only [isGranted, isRefused, isFailing, Bool.false_eq_true,
    if_false, if_true, add_zero] at hg hr hl
  refine h.of_writer rfl rfl rfl id ?_ ?_ ?_ ?_ ?_ ?_
  · convert h.ring using 1
    exact ring_congr rfl rfl rfl rfl rfl rfl (tenant_update_none rfl hten)
  · exact h.writeIdx
  · simp only [setWriter, level, granted, refused, hg, h.freeCount, ofInt_add_one]
    congr 1
    omega
  · simp only [setWriter, granted, hg]
    exact h.room
  · exact writers_update h.writers rfl rfl trivial
  · refine ⟨f, hf, ?_⟩
    simp only [setWriter, refused, failing, hl] at href ⊢
    omega

theorem Inv.fail (hw : st.writer w = .failing)
    (hx : st.exec cfg (.fail w) = some st') : Inv cfg st' := by
  have hten : (st.writer w).tenant = none := by rw [hw]; rfl
  obtain ⟨f, hf, href⟩ := h.failed
  simp only [exec, hw] at hx
  cases hx
  obtain ⟨hg, hr, hl⟩ := counts_update hw .idle
  simp only [isGranted, isRefused, isFailing, Bool.false_eq_true,
    if_false, if_true, add_zero] at hg hr hl
  refine h.of_writer rfl rfl rfl id ?_ ?_ ?_ ?_ ?_ ?_
  · convert h.ring using 1
    exact ring_congr rfl rfl rfl rfl rfl rfl (tenant_update_none rfl hten)
  · exact h.writeIdx
  · simp only [setWriter, level, granted, refused, hg, hr]
    exact h.freeCount
  · simp only [setWriter, granted, hg]
    exact h.room
  · exact writers_update h.writers rfl rfl trivial
  · refine ⟨f + 1, ?_, ?_⟩
    · simp only [setWriter]
      rw [hf, ofNat_add_one]
    simp only [setWriter, refused, failing, hr] at href ⊢
    omega

/-! ### Writing -/

theorem Inv.of_tenant {b : Bool} (hw : (st.writer w).tenant = some (k, b))
    (hpc : pc.isGranted = false ∧ pc.isRefused = false ∧ pc.isFailing = false)
    (hwr : st'.writer = update st.writer w pc)
    (hcou : st'.freeCount = st.freeCount ∧ st'.writeIdx = st.writeIdx ∧
      st'.failedWrites = st.failedWrites ∧ st'.claims = st.claims ∧ st'.refusals = st.refusals)
    (hrdr : st'.reader = st.reader ∧ st'.readIdx = st.readIdx ∧ st'.delivered = st.delivered)
    (hrec : ∀ {k data}, st.record k = some data → st'.record k = some data)
    (hrin : Sound cfg.count (st'.ring cfg)) (hwre : ∀ v, st'.WriterOk cfg (st'.writer v)) :
    Inv cfg st' := by
  have hbu : (st.writer w).isGranted = false ∧ (st.writer w).isRefused = false ∧
      (st.writer w).isFailing = false := by
    cases hpcw : st.writer w <;> simp_all [tenant, isGranted, isRefused, isFailing]
  have hg : st'.granted = st.granted := by
    unfold granted
    rw [hwr]
    exact census_update_of_eq (by rw [hpc.1, hbu.1])
  have hr : st'.refused = st.refused := by
    unfold refused
    rw [hwr]
    exact census_update_of_eq (by rw [hpc.2.1, hbu.2.1])
  have hl : st'.failing = st.failing := by
    unfold failing
    rw [hwr]
    exact census_update_of_eq (by rw [hpc.2.2, hbu.2.2])
  obtain ⟨hfr, hwri, hfai, hcl, href⟩ := hcou
  obtain ⟨hrea, hreadIdx, hde⟩ := hrdr
  refine h.of_writer hrea hreadIdx hde hrec hrin ?_ ?_ ?_ hwre ?_
  · rw [hwri, hcl]
    exact h.writeIdx
  · unfold level
    rw [hfr, hde, hcl, hg, hr]
    exact h.freeCount
  · rw [hcl, hg]
    exact h.room
  · rw [hfai, href, hr, hl]
    exact h.failed

theorem Inv.markBusy {idx : BitVec 32} (hfit : Fits cfg N)
    (hw : st.writer w = .claimed idx k) (hx : st.exec cfg (.markBusy w) = some st') :
    Inv cfg st' := by
  have hte : (st.writer w).tenant = some (k, false) := by rw [hw]; rfl
  have hid : idx.toNat = k % cfg.count := by
    have hok := h.writers w
    rw [hw] at hok
    exact hok
  have hpt : (idx * cfg.slotSize).toNat = k % cfg.count * cfg.size := by
    rw [← hid]
    apply hfit.toNat_ptr
    rw [hid]
    exact Nat.mod_lt k cfg.count_spec.1
  simp only [exec, hw] at hx
  cases hx
  refine h.of_tenant hte ⟨rfl, rfl, rfl⟩ rfl ⟨rfl, rfl, rfl, rfl, rfl⟩ ⟨rfl, rfl, rfl⟩
    id ?_ ?_
  · convert h.ring.enter hte (st.region cfg.size (k % cfg.count * cfg.size)) using 1
    simp only [State.ring, Ring.enter, setWriter, setSlot, tenant_update]
    congr 1
    rw [← hid]
    exact cell_update .busy rfl rfl
  refine writers_update h.writers rfl rfl ⟨hpt, ?_⟩
  rw [hpt]
  rfl

end

theorem region_store_other {addr i j : Nat} {size : Nat} (hadd : addr = i * size + off)
    (hoff : off < size) (hij : j ≠ i) (hm : st'.bufferMem = update st.bufferMem addr b) :
    st'.region size (j * size) = st.region size (j * size) := by
  apply List.map_congr_left
  intro o ho
  rw [List.mem_range] at ho
  rw [hm, update_of_ne]
  rw [hadd]
  intro heq
  have hdi : ∀ x y, y < size → (x * size + y) / size = x := by
    intro x y hy
    rw [add_comm, Nat.add_mul_div_right _ _ (by omega), Nat.div_eq_of_lt hy, zero_add]
  have hco := congrArg (· / size) heq
  simp only [hdi j o ho, hdi i off hoff] at hco
  exact hij hco

theorem region_store_self {start : Nat} {size : Nat}
    (hm : st'.bufferMem = update st.bufferMem (start + off) b) :
    st'.region size start = (st.region size start).set off b := by
  unfold region
  apply List.ext_getElem
  · simp
  intro o ho ho'
  simp only [List.getElem_map, List.getElem_range, List.getElem_set, hm]
  by_cases hof : off = o
  · subst hof
    simp
  rw [if_neg hof, update_of_ne]
  omega

theorem Inv.store {ptr : BitVec 32} {data : List Byte} (h : Inv cfg st)
    (hw : st.writer w = .writing ptr k data) (hx : st.exec cfg (.store w off b) = some st') :
    Inv cfg st' := by
  have hte : (st.writer w).tenant = some (k, true) := by rw [hw]; rfl
  obtain ⟨hpt, hdat⟩ : ptr.toNat = k % cfg.count * cfg.size ∧
      data = st.region cfg.size (k % cfg.count * cfg.size) := by
    have hok := h.writers w
    rw [hw] at hok
    exact hok
  simp only [exec, hw] at hx
  split at hx
  · rename_i hoff
    cases hx
    generalize hst' : ({ st with
      bufferMem := update st.bufferMem (ptr.toNat + off) b } : State N).setWriter w
        (.writing ptr k (data.set off b)) = st'
    have hm : st'.bufferMem = update st.bufferMem (k % cfg.count * cfg.size + off) b := by
      rw [← hst', ← hpt]
      rfl
    have hse : st'.region cfg.size (k % cfg.count * cfg.size) = data.set off b := by
      rw [region_store_self hm, hdat]
    have ho : ∀ {j}, j ≠ k % cfg.count →
        st'.region cfg.size (j * cfg.size) = st.region cfg.size (j * cfg.size) := fun hj =>
      region_store_other rfl hoff hj hm
    have hwr : st'.writer = update st.writer w (.writing ptr k (data.set off b)) := by
      rw [← hst']
      rfl
    refine h.of_tenant hte ⟨rfl, rfl, rfl⟩ hwr ?_ ?_ ?_ ?_ ?_
    · subst hst'
      exact ⟨rfl, rfl, rfl, rfl, rfl⟩
    · subst hst'
      exact ⟨rfl, rfl, rfl⟩
    · subst hst'
      exact fun hk => hk
    · convert h.ring.write hte (data.set off b) using 1
      have hslo : st'.slots = st.slots := by
        subst hst'
        rfl
      have hcel : st'.cell cfg = update (st.cell cfg) (k % cfg.count)
          (.busy (data.set off b)) := by
        obtain ⟨-, -, -, old, hbu⟩ := h.ring.inside hte
        funext j
        unfold cell
        rw [hslo]
        by_cases hj : j = k % cfg.count
        · subst hj
          rw [update_self, hse]
          have hs : st.slots (k % cfg.count) = .busy := by
            simp only [State.ring, cell, SlotState.cell] at hbu
            split at hbu
            · cases hbu
            · assumption
            cases hbu
          rw [hs]
          rfl
        rw [update_of_ne hj, ho hj]
      have htnn : (fun v => (st'.writer v).tenant) = fun v => (st.writer v).tenant := by
        rw [hwr, tenant_update]
        have hsam : (writing ptr k (data.set off b)).tenant = (st.writer w).tenant := by
          rw [hte]
          rfl
        rw [hsam]
        exact update_eq_self _ _
      simp only [State.ring, Ring.write, hcel, htnn]
      subst hst'
      rfl
    · intro v
      by_cases hv : v = w
      · rw [hv, hwr, update_self]
        exact ⟨hpt, hse.symm⟩
      have hok := h.writers v
      rw [hwr, update_of_ne hv]
      cases hpc : st.writer v with
      | writing ptr' k' data' =>
        rw [hpc] at hok
        obtain ⟨hptr', hdata'⟩ := hok
        have hv' : (st.writer v).tenant = some (k', true) := by rw [hpc]; rfl
        have hne : k' ≠ k := by
          rintro rfl
          exact hv (h.ring.unique hv' hte)
        have hs : k' % cfg.count ≠ k % cfg.count := by
          obtain ⟨hk', hkn', -⟩ := h.ring.tenant_spec hv'
          obtain ⟨hk, hkn, -⟩ := h.ring.tenant_spec hte
          have hle := h.ring.next_le
          exact h.ring.slot_ne hk' (by omega) hk hkn hne
        exact ⟨hptr', by rw [ho hs]; exact hdata'⟩
      | claimed idx' k' =>
        rw [hpc] at hok
        exact hok
      | _ => trivial
  · cases hx

theorem Inv.finishWrite {ptr : BitVec 32} {data : List Byte} (h : Inv cfg st) (hfit : Fits cfg N)
    (hw : st.writer w = .writing ptr k data) (hx : st.exec cfg (.finishWrite w) = some st') :
    Inv cfg st' := by
  have hte : (st.writer w).tenant = some (k, true) := by rw [hw]; rfl
  obtain ⟨hptr, hdat⟩ : ptr.toNat = k % cfg.count * cfg.size ∧
      data = st.region cfg.size (k % cfg.count * cfg.size) := by
    have hok := h.writers w
    rw [hw] at hok
    exact hok
  have hidx := hfit.toNat_slot hptr
  obtain ⟨-, -, hn⟩ := h.ring.tenant_spec hte
  simp only [exec, hw] at hx
  split at hx
  · cases hx
  cases hx
  refine h.of_tenant hte ⟨rfl, rfl, rfl⟩ rfl ⟨rfl, rfl, rfl, rfl, rfl⟩ ⟨rfl, rfl, rfl⟩
    ?_ ?_ ?_
  · intro j old hj
    have hjk : j ≠ k := by
      rintro rfl
      cases hj.symm.trans hn
    exact (update_of_ne hjk _ _).trans hj
  · convert h.ring.finish hte data using 1
    simp only [State.ring, Ring.finish, setWriter, setSlot, tenant_update]
    congr 1
    rw [hidx, hdat]
    exact cell_update .ready rfl rfl
  exact writers_update h.writers rfl rfl trivial

end

end State

end Litmus.FtBuffer
