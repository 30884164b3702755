import UnimonoMoe.Kernel.Build
import UnimonoMoe.Lib.Executions
import Mathlib.Data.BitVec
import Mathlib.Data.Finset.Card
import Mathlib.Data.Set.Function
import Mathlib.Order.Interval.Set.Basic

/-!
# The software grid barrier

`grid_barrier` of `moe_grid_barrier.h`, called by every block of a grid once at the end of every
phase.  The grid is a machine in the sense of `Epochs`: the agents are the blocks, an epoch is a
phase together with the call that ends it, and an instruction is one memory operation of the
phase, one atomic operation of the barrier, the `__syncthreads` before the arrival, or the round
of the spin loop that ends it.  The `__syncthreads` after the spin loop is the rule that a block
starts its next epoch only when all its threads have finished the current one.  Memory operations
are atomic and sequentially consistent, so the fences have no effect.

Which counter a call uses is a parameter.  `sync_grid` of the kernel takes a fresh pair for every
call (`syncGridRun`), the usage contract in the header alternates the two slots of one pair
(`reuseRun`).  As long as no counter is used twice the counter of a call shows its seed and its
arrivals (`counter_eq`), its bit 31 is set only by the last arrival (`arrivedAt_of_released`), and
the phases do not overlap.  From the third call on one pair the bit left over from two calls
before lets a block through that arrives before block 0 (`exists_early_exit`).
-/

namespace UnimonoMoe

open Epochs

/-! ## The words of the barrier -/

/-- A grid the launcher lets through: `GRID_SIZE` is at most the number of multiprocessors, which
the runtime reports as an `int`. -/
structure BarrierGrid where
  /-- `GRID_SIZE`, the co-resident blocks. -/
  gridSize : ℕ
  /-- `BLOCK_SIZE`, the threads of a block. -/
  blockSize : ℕ
  /-- `cudaDevAttrMultiProcessorCount`. -/
  smCount : ℕ
  gridSize_pos : 0 < gridSize
  blockSize_pos : 0 < blockSize
  coResident : gridSize ≤ smCount
  smCount_lt : smCount < 2 ^ 31

/-- The release bit. -/
lemma topBit_eq : (0x80000000#32 : BitVec 32) = BitVec.twoPow 32 31 := rfl

namespace BarrierGrid

variable (G : BarrierGrid)

/-- `blockIdx.x == 0` -/
def seedBlock : Fin G.gridSize := ⟨0, G.gridSize_pos⟩

/-- `threadIdx.x == 0` -/
def lead : Fin G.blockSize := ⟨0, G.blockSize_pos⟩

/-- `SEED = 0x80000000u - (GRID_SIZE_STATIC - 1u)` -/
def seed : BitVec 32 := 0x80000000#32 - (BitVec.ofNat 32 G.gridSize - 1#32)

/-- The number of blocks leaves the top bit of the counter free. -/
lemma gridSize_lt : G.gridSize < 2 ^ 31 := G.coResident.trans_lt G.smCount_lt

/-- The blocks that are not the seed block. -/
lemma toNat_others : (BitVec.ofNat 32 G.gridSize - 1#32).toNat = G.gridSize - 1 := by
  have hlt := G.gridSize_lt
  have hsize : (BitVec.ofNat 32 G.gridSize).toNat = G.gridSize := by
    rw [BitVec.toNat_ofNat, Nat.mod_eq_of_lt (by omega)]
  have hle : 1#32 ≤ BitVec.ofNat 32 G.gridSize := by
    rw [BitVec.le_def, hsize, BitVec.toNat_one (by omega)]
    exact G.gridSize_pos
  rw [BitVec.toNat_sub_of_le hle, hsize, BitVec.toNat_one (by omega)]

/-- The seed lacks as much to the top bit as there are other blocks. -/
lemma toNat_seed : G.seed.toNat = 2 ^ 31 - (G.gridSize - 1) := by
  have hlt := G.gridSize_lt
  have htop : (0x80000000#32).toNat = 2 ^ 31 := by
    rw [topBit_eq]
    exact BitVec.toNat_twoPow_of_lt (by omega)
  have hle : BitVec.ofNat 32 G.gridSize - 1#32 ≤ 0x80000000#32 := by
    rw [BitVec.le_def, toNat_others, htop]
    omega
  unfold seed
  rw [BitVec.toNat_sub_of_le hle, toNat_others, htop]

end BarrierGrid

/-- `to_fold = prior & 0x7FFFFFFFu` -/
def toFold (prior : BitVec 32) : BitVec 32 := prior &&& 0x7FFFFFFF#32

/-- What the folding subtracts is the counter without its top bit. -/
lemma toNat_toFold (x : BitVec 32) : (toFold x).toNat = x.toNat % 2 ^ 31 := by
  unfold toFold
  rw [BitVec.toNat_and]
  exact Nat.and_two_pow_sub_one_eq_mod x.toNat 31

/-- `(atomicAdd(c, 0u) & 0x80000000u) != 0u` -/
def ReleaseBit (x : BitVec 32) : Prop := x &&& 0x80000000#32 ≠ 0#32

instance : DecidablePred ReleaseBit := fun _ => inferInstanceAs (Decidable (_ ≠ _))

/-- Bit 31 is set in the upper half of the words. -/
lemma releaseBit_iff (x : BitVec 32) : ReleaseBit x ↔ 2 ^ 31 ≤ x.toNat := by
  have hmsb : x.getLsbD 31 = decide (2 ^ 31 ≤ x.toNat) := by
    have h := BitVec.msb_eq_decide x
    rw [BitVec.msb_eq_getLsbD_last] at h
    exact h
  unfold ReleaseBit
  rw [topBit_eq, BitVec.and_twoPow, hmsb]
  by_cases hle : 2 ^ 31 ≤ x.toNat
  · rw [decide_eq_true hle, if_pos rfl]
    exact iff_of_true (by decide) hle
  · rw [decide_eq_false hle, if_neg Bool.false_ne_true]
    exact iff_of_false (not_not.mpr rfl) hle

/-- `counters + (phase & 1u)`, as a word of the workspace, for a pair at word `counters`. -/
def counterWord (counters phase : ℕ) : ℕ := counters + phase % 2

/-! ## The machine -/

/-- The operations of a thread in one phase and the call of `grid_barrier` that ends it. -/
inductive BarrierOp
  /-- the `k`-th memory operation of the phase -/
  | work (k : ℕ)
  /-- the `__syncthreads()` before the arrival -/
  | syncThreads
  /-- `prior = atomicExch(c, SEED)` -/
  | exchange
  /-- `if (to_fold != 0u) atomicAdd(c, to_fold)` -/
  | foldBack
  /-- `atomicAdd(c, 1u)` -/
  | arrive
  /-- `while ((atomicAdd(c, 0u) & 0x80000000u) == 0u)` -/
  | spin
deriving DecidableEq, Repr

/-- The operation accesses the counter of the call. -/
def BarrierOp.usesCounter : BarrierOp → Bool
  | .exchange | .foldBack | .arrive | .spin => true
  | .work _ | .syncThreads => false

/-- The words of the barrier counters and the data the phases work on. -/
structure BarrierMem (δ : Type*) where
  counters : ℕ → BitVec 32
  data : δ

/-- What the phases do: how many memory operations each thread makes in phase `n`, and what each
does to the data. -/
structure Phases (G : BarrierGrid) (δ : Type*) where
  count : ℕ → Fin G.gridSize → Fin G.blockSize → ℕ
  act : ℕ → Fin G.gridSize → Fin G.blockSize → ℕ → δ → δ

/-- A configuration of a grid between its barriers. -/
abbrev BarrierConfig (G : BarrierGrid) (δ : Type*) : Type _ :=
  Config (Fin G.gridSize) (Fin G.blockSize) BarrierOp (BarrierMem δ) (BitVec 32)

section Machine

variable {G : BarrierGrid} {δ : Type*}

/-- `grid_barrier`, up to the `__syncthreads` at its end. -/
def gridBarrier (b : Fin G.gridSize) (t : Fin G.blockSize) : List BarrierOp :=
  if G.gridSize = 1 then []
  else
    .syncThreads ::
      ((if t = G.lead then
        if b = G.seedBlock then [.exchange, .foldBack] else [.arrive]
      else []) ++ [.spin])

/-- The counter word the current call of block `b` uses. -/
def BarrierMem.current (word : ℕ → ℕ) (c : BarrierConfig G δ) (b : Fin G.gridSize) : BitVec 32 :=
  c.mem.counters (word (c.epoch b))

/-- Block `b` stores `x` in the counter of its current call. -/
def BarrierMem.put (word : ℕ → ℕ) (c : BarrierConfig G δ) (b : Fin G.gridSize) (x : BitVec 32) :
    BarrierMem δ :=
  { c.mem with counters := Function.update c.mem.counters (word (c.epoch b)) x }

/-- When a thread gets past its next operation. -/
def barrierPasses (word : ℕ → ℕ) (c : BarrierConfig G δ) (b : Fin G.gridSize)
    (_ : Fin G.blockSize) : BarrierOp → Prop
  | .syncThreads => ∀ t, Arrived c b t .syncThreads
  | .spin => ReleaseBit (BarrierMem.current word c b)
  | _ => True

/-- What an operation does to the memory, and to the register `to_fold` of its thread. -/
def barrierEffect (word : ℕ → ℕ) (w : Phases G δ) (c : BarrierConfig G δ) (b : Fin G.gridSize)
    (t : Fin G.blockSize) : BarrierOp → BarrierMem δ × BitVec 32
  | .work k => ({ c.mem with data := w.act (c.epoch b) b t k c.mem.data }, c.reg b t)
  | .exchange => (BarrierMem.put word c b G.seed, toFold (BarrierMem.current word c b))
  | .foldBack =>
    if c.reg b t ≠ 0#32 then
      (BarrierMem.put word c b (BarrierMem.current word c b + c.reg b t), c.reg b t)
    else (c.mem, c.reg b t)
  | .arrive => (BarrierMem.put word c b (BarrierMem.current word c b + 1#32), c.reg b t)
  | .syncThreads | .spin => (c.mem, c.reg b t)

/-- A grid that runs `phases` phases, the first `calls` of which end in a call of `grid_barrier`;
the `n`-th call uses the counter at `word n`.  For grids of at least two blocks: a single block
returns from `grid_barrier` at once, without the `__syncthreads` that gather it here. -/
def barrierRun (G : BarrierGrid) (word : ℕ → ℕ) (calls phases : ℕ) (w : Phases G δ) :
    Machine (Fin G.gridSize) (Fin G.blockSize) BarrierOp (BarrierMem δ) (BitVec 32) where
  epochs := phases
  prog n b t :=
    if n = 0 then []
    else (List.range (w.count n b t)).map .work ++ if n ≤ calls then gridBarrier b t else []
  start _ m := m
  reg₀ := 0#32
  enabled := barrierPasses word
  effect := barrierEffect word w

/-- Block `b` has entered its `n`-th call: all its threads are through with phase `n`. -/
def Entered (c : BarrierConfig G δ) (n : ℕ) (b : Fin G.gridSize) : Prop :=
  n < c.epoch b ∨ n = c.epoch b ∧ ∀ t k, .work k ∉ c.rest b t

/-- The operation by which block `b` arrives. -/
def arrivalOp (b : Fin G.gridSize) : BarrierOp :=
  if b = G.seedBlock then .exchange else .arrive

/-- Block `b` has arrived at its `n`-th call. -/
def ArrivedAt (c : BarrierConfig G δ) (n : ℕ) (b : Fin G.gridSize) : Prop :=
  Done c n b G.lead (arrivalOp b)

/-- Thread `t` of block `b` is out of the spin loop of its `n`-th call. -/
def Leaves (c : BarrierConfig G δ) (n : ℕ) (b : Fin G.gridSize) (t : Fin G.blockSize) : Prop :=
  Done c n b t .spin

end Machine

/-! ## The program of a block -/

section Program

variable {G : BarrierGrid} {δ : Type*} {word : ℕ → ℕ} {calls phases n : ℕ} {w : Phases G δ}
  {b : Fin G.gridSize} {t : Fin G.blockSize}

/-- What thread `t` of block `b` runs in a phase that ends in a call of the barrier. -/
def RunsBarrier (G : BarrierGrid) (b : Fin G.gridSize) (t : Fin G.blockSize) : BarrierOp → Prop
  | .work _ => False
  | .syncThreads | .spin => True
  | .exchange | .foldBack => t = G.lead ∧ b = G.seedBlock
  | .arrive => t = G.lead ∧ b ≠ G.seedBlock

/-- The operations of a thread in one call. -/
lemma mem_gridBarrier (hN : 2 ≤ G.gridSize) {i : BarrierOp} :
    i ∈ gridBarrier b t ↔ RunsBarrier G b t i := by
  unfold gridBarrier
  rw [if_neg (by omega)]
  by_cases ht : t = G.lead <;> by_cases hb : b = G.seedBlock <;>
    cases i <;> simp [RunsBarrier, ht, hb]

/-- A thread does its share of the phase and then takes part in the call, if there is one. -/
lemma mem_barrierProg (hN : 2 ≤ G.gridSize) {i : BarrierOp} :
    i ∈ (barrierRun G word calls phases w).prog n b t ↔
      0 < n ∧ ((∃ k, k < w.count n b t ∧ i = .work k) ∨ n ≤ calls ∧ RunsBarrier G b t i) := by
  simp only [barrierRun]
  rcases Nat.eq_zero_or_pos n with rfl | hpos
  · simp
  · rw [if_neg hpos.ne', List.mem_append, List.mem_map]
    by_cases hn : n ≤ calls
    · simp [hn, hpos, mem_gridBarrier hN, eq_comm]
    · simp [hn, hpos, eq_comm]

/-- A stage for every operation such that what an operation waits for has a smaller stage. -/
def barrierStage : BarrierOp → ℕ
  | .work _ => 0
  | .syncThreads => 1
  | .exchange | .arrive => 2
  | .foldBack => 3
  | .spin => 4

/-- A call goes through its stages in order. -/
lemma piece_gridBarrier : Piece barrierStage 1 5 (gridBarrier b t) := by
  have hspin : Piece barrierStage 4 5 [.spin] :=
    Piece.singleton le_rfl (by simp [barrierStage])
  have hseed : Piece barrierStage 2 4 [.exchange, .foldBack] :=
    Piece.cons 3 le_rfl (by simp [barrierStage])
      (Piece.singleton le_rfl (by simp [barrierStage])) (by omega)
  have harrive : Piece barrierStage 2 4 [.arrive] :=
    Piece.singleton le_rfl (by simp [barrierStage])
  have hlead : Piece barrierStage 2 4 (if t = G.lead then
      if b = G.seedBlock then [.exchange, .foldBack] else [.arrive] else []) := by
    split_ifs
    · exact hseed
    · exact harrive
    · exact Piece.nil
  unfold gridBarrier
  by_cases hone : G.gridSize = 1
  · rw [if_pos hone]
    exact Piece.nil
  · rw [if_neg hone]
    exact Piece.cons 2 le_rfl (by simp [barrierStage])
      (hlead.append 4 hspin (by omega) (by omega)) (by omega)

/-- The programs of the blocks are ordered by `barrierStage`. -/
theorem barrierRun_staged : (barrierRun G word calls phases w).Staged barrierStage := by
  have hpiece : ∀ n b t,
      Piece barrierStage 0 5 ((barrierRun G word calls phases w).prog n b t) := by
    intro n b t
    have hwork : Piece barrierStage 0 1 ((List.range (w.count n b t)).map .work) := by
      refine Piece.of_const (List.nodup_range.map fun k k' heq => by injection heq) ?_ (by omega)
      simp [barrierStage]
    simp only [barrierRun]
    split_ifs
    · exact Piece.nil
    · exact hwork.append 1 piece_gridBarrier (by omega) (by omega)
    · exact hwork.append 1 Piece.nil (by omega) (by omega)
  exact ⟨fun b t => rfl, fun n b t => (hpiece n b t).sorted, fun n b t => (hpiece n b t).nodup⟩

end Program

/-! ## What a counter shows -/

section Counter

variable {G : BarrierGrid} {δ : Type*} {word : ℕ → ℕ} {calls phases n : ℕ} {w : Phases G δ}
  {c c' : BarrierConfig G δ} {m₀ : BarrierMem δ} {b : Fin G.gridSize} {t : Fin G.blockSize}
  {i : BarrierOp} {l : List BarrierOp}

/-- No two calls of the run use the same counter. -/
def FreshCounters (word : ℕ → ℕ) (calls phases : ℕ) : Prop :=
  Set.InjOn word { n | 0 < n ∧ n ≤ calls ∧ n ≤ phases }

/-- The counters of all calls are zero. -/
def ZeroCounters (word : ℕ → ℕ) (calls : ℕ) (m : BarrierMem δ) : Prop :=
  ∀ n, 0 < n → n ≤ calls → m.counters (word n) = 0#32

/-- The other blocks that have arrived at call `n`. -/
def arrivals (c : BarrierConfig G δ) (n : ℕ) : Finset (Fin G.gridSize) :=
  Finset.univ.filter fun b => b ≠ G.seedBlock ∧ Done c n b G.lead .arrive

/-- What the exchange of call `n` has put into the counter. -/
def seeded (c : BarrierConfig G δ) (n : ℕ) : ℕ :=
  if Done c n G.seedBlock G.lead .exchange then 2 ^ 31 - (G.gridSize - 1) else 0

/-- What block 0 has taken out of the counter of call `n` and not yet folded back. -/
def owed (c : BarrierConfig G δ) (n : ℕ) : ℕ :=
  if Done c n G.seedBlock G.lead .exchange ∧ ¬ Done c n G.seedBlock G.lead .foldBack then
    (c.reg G.seedBlock G.lead).toNat
  else 0

/-- The blocks that count as arrived. -/
lemma mem_arrivals : b ∈ arrivals c n ↔ b ≠ G.seedBlock ∧ Done c n b G.lead .arrive := by
  simp [arrivals]

/-- Fewer blocks arrive by `atomicAdd` than there are blocks. -/
lemma card_arrivals_lt : (arrivals c n).card < G.gridSize := by
  have hseed : G.seedBlock ∉ arrivals c n := fun hmem => (mem_arrivals.mp hmem).1 rfl
  have hlt := Finset.card_lt_univ_of_notMem hseed
  rwa [Fintype.card_fin] at hlt

/-- Block 0 owes nothing outside the call it is in. -/
lemma owed_eq_zero_of_ne (hne : c.epoch G.seedBlock ≠ n) : owed c n = 0 := by
  unfold owed
  rw [if_neg]
  rintro ⟨hexchange, hfold⟩
  rcases hexchange with hlt | ⟨heq, _⟩
  · exact hfold (Or.inl hlt)
  · exact hne heq.symm

/-- Block 0 owes nothing when its program is finished. -/
lemma owed_eq_zero_of_idle (hidle : ∀ t, c.rest G.seedBlock t = []) : owed c n = 0 := by
  unfold owed
  rw [if_neg]
  rintro ⟨hexchange, hfold⟩
  rcases hexchange with hlt | ⟨heq, _⟩
  · exact hfold (Or.inl hlt)
  · exact hfold (Or.inr ⟨heq, by rw [hidle]; exact List.not_mem_nil⟩)

/-- A thread that is about to use the counter takes part in the call of its phase. -/
lemma runs_of_barrier_head (hN : 2 ≤ G.gridSize)
    (h : (barrierRun G word calls phases w).Reachable m₀ c) (hrest : c.rest b t = i :: l)
    (huses : i.usesCounter) :
    0 < c.epoch b ∧ c.epoch b ≤ calls ∧ c.epoch b ≤ phases ∧ RunsBarrier G b t i := by
  have hmem := h.mem_prog (show i ∈ c.rest b t by rw [hrest]; exact List.mem_cons_self)
  obtain ⟨hpos, ⟨k, _, rfl⟩ | ⟨hcalls, hruns⟩⟩ := (mem_barrierProg hN).mp hmem
  · cases huses
  · exact ⟨hpos, hcalls, h.epoch_le b, hruns⟩

/-- The operation changes a counter. -/
def BarrierOp.IsRmw (i : BarrierOp) : Prop := i = .exchange ∨ i = .foldBack ∨ i = .arrive

section Frame

variable (hN : 2 ≤ G.gridSize) (hfresh : FreshCounters word calls phases)
  (h : (barrierRun G word calls phases w).Reachable m₀ c) (hn : 0 < n) (hcalls : n ≤ calls)
  (hphases : n ≤ phases) (hrest : c.rest b t = i :: l) (hmiss : ¬ (c.epoch b = n ∧ i.IsRmw))
include h hrest hmiss

/-- An operation that does not change the counter of call `n` is not one of those that do. -/
lemma done_rmw_frame (b' : Fin G.gridSize) (t' : Fin G.blockSize) {j : BarrierOp} (hj : j.IsRmw) :
    Done ((barrierRun G word calls phases w).fire c b t i l) n b' t' j ↔ Done c n b' t' j := by
  rw [done_fire_iff barrierRun_staged h hrest]
  refine or_iff_left ?_
  rintro ⟨rfl, rfl, rfl, rfl⟩
  exact hmiss ⟨rfl, hj⟩

/-- Such an operation leaves the seed of the call. -/
lemma seeded_frame :
    seeded ((barrierRun G word calls phases w).fire c b t i l) n = seeded c n := by
  unfold seeded
  simp only [done_rmw_frame h hrest hmiss _ _ (Or.inl rfl : BarrierOp.IsRmw .exchange)]

/-- It leaves the arrivals at the call. -/
lemma arrivals_frame :
    arrivals ((barrierRun G word calls phases w).fire c b t i l) n = arrivals c n := by
  ext b'
  rw [mem_arrivals, mem_arrivals,
    done_rmw_frame h hrest hmiss _ _ (Or.inr (Or.inr rfl) : BarrierOp.IsRmw .arrive)]

/-- It leaves what the call is owed. -/
lemma owed_frame : owed ((barrierRun G word calls phases w).fire c b t i l) n = owed c n := by
  by_cases hepoch : c.epoch G.seedBlock = n
  · have hreg : ((barrierRun G word calls phases w).fire c b t i l).reg G.seedBlock G.lead =
        c.reg G.seedBlock G.lead := by
      by_cases hself : G.seedBlock = b ∧ G.lead = t
      · obtain ⟨rfl, rfl⟩ := hself
        rw [fire_reg_self]
        cases i with
        | exchange => exact absurd ⟨hepoch, Or.inl rfl⟩ hmiss
        | foldBack => exact absurd ⟨hepoch, Or.inr (Or.inl rfl)⟩ hmiss
        | arrive => exact absurd ⟨hepoch, Or.inr (Or.inr rfl)⟩ hmiss
        | work k => rfl
        | syncThreads => rfl
        | spin => rfl
      · exact fire_reg_of_ne c b t i l hself
    unfold owed
    rw [hreg]
    simp only [done_rmw_frame h hrest hmiss _ _ (Or.inl rfl : BarrierOp.IsRmw .exchange),
      done_rmw_frame h hrest hmiss _ _ (Or.inr (Or.inl rfl) : BarrierOp.IsRmw .foldBack)]
  · rw [owed_eq_zero_of_ne hepoch, owed_eq_zero_of_ne (by rwa [fire_epoch])]

include hN hfresh hn hcalls hphases in
/-- And it leaves the counter of the call. -/
lemma counter_frame : ((barrierRun G word calls phases w).fire c b t i l).mem.counters (word n) =
    c.mem.counters (word n) := by
  have hput : i.IsRmw → i.usesCounter → ∀ x,
      (BarrierMem.put word c b x).counters (word n) = c.mem.counters (word n) := by
    intro hrmw huses x
    obtain ⟨hpos, hle, hle', _⟩ := runs_of_barrier_head hN h hrest huses
    have hword : word n ≠ word (c.epoch b) := fun hword =>
      hmiss ⟨hfresh ⟨hpos, hle, hle'⟩ ⟨hn, hcalls, hphases⟩ hword.symm, hrmw⟩
    simp [BarrierMem.put, hword]
  rw [fire_mem]
  cases i with
  | work k => rfl
  | syncThreads => rfl
  | spin => rfl
  | exchange => exact hput (Or.inl rfl) rfl _
  | foldBack =>
    simp only [barrierRun, barrierEffect]
    split_ifs
    · exact hput (Or.inr (Or.inl rfl)) rfl _
    · rfl
  | arrive => exact hput (Or.inr (Or.inr rfl)) rfl _

end Frame

/-- The start of a phase leaves all that is said about the counter of call `n` alone. -/
lemma counter_launch (word : ℕ → ℕ) (phases : ℕ) (w : Phases G δ) (hN : 2 ≤ G.gridSize)
    (hn : 0 < n) (hcalls : n ≤ calls) (hidle : ∀ t, c.rest b t = []) :
    owed ((barrierRun G word calls phases w).launch c b) n = owed c n ∧
      seeded ((barrierRun G word calls phases w).launch c b) n = seeded c n ∧
      arrivals ((barrierRun G word calls phases w).launch c b) n = arrivals c n := by
  have hprog : ∀ b' j, RunsBarrier G b' G.lead j →
      (Done ((barrierRun G word calls phases w).launch c b) n b' G.lead j ↔
        Done c n b' G.lead j) := fun b' j hj =>
    done_launch_iff ((mem_barrierProg hN).mpr ⟨hn, Or.inr ⟨hcalls, hj⟩⟩) hidle
  have hexchange := hprog G.seedBlock .exchange ⟨rfl, rfl⟩
  have hfold := hprog G.seedBlock .foldBack ⟨rfl, rfl⟩
  refine ⟨?_, ?_, ?_⟩
  · by_cases hb : G.seedBlock = b
    · subst hb
      rw [owed_eq_zero_of_idle hidle]
      unfold owed
      rw [launch_reg_self]
      simp [barrierRun]
    · unfold owed
      rw [launch_reg_of_ne c b hb]
      simp only [hexchange, hfold]
  · unfold seeded
    simp only [hexchange]
  · ext b'
    rw [mem_arrivals, mem_arrivals]
    refine and_congr_right fun hb' => ?_
    exact hprog b' .arrive ⟨rfl, hb'⟩

/-- The counter of call `n` shows its seed and its arrivals, less what block 0 has taken out of
it. -/
def CounterShows (word : ℕ → ℕ) (c : BarrierConfig G δ) (n : ℕ) : Prop :=
  (c.mem.counters (word n)).toNat + owed c n = seeded c n + (arrivals c n).card

/-- Block 0 folds back what it has taken out by its exchange. -/
lemma done_exchange_of_foldBack (hN : 2 ≤ G.gridSize)
    (h : (barrierRun G word calls phases w).Reachable m₀ c) (hn : 0 < n) (hcalls : n ≤ calls)
    (hfold : Done c n G.seedBlock G.lead .foldBack) : Done c n G.seedBlock G.lead .exchange := by
  refine hfold.of_stage_lt barrierRun_staged h ?_ (by simp [barrierStage])
  rw [mem_barrierProg hN]
  exact ⟨hn, Or.inr ⟨hcalls, rfl, rfl⟩⟩

/-- An instruction that is ahead is not executed. -/
lemma not_done_head (hrest : c.rest b t = i :: l) : ¬ Done c (c.epoch b) b t i := fun hdone =>
  hdone.not_mem rfl (by rw [hrest]; exact List.mem_cons_self)

/-- Executing one operation does not execute another one. -/
lemma done_other_iff (h : (barrierRun G word calls phases w).Reachable m₀ c)
    (hrest : c.rest b t = i :: l) {b' : Fin G.gridSize} {t' : Fin G.blockSize} {j : BarrierOp}
    (hne : j ≠ i) :
    Done ((barrierRun G word calls phases w).fire c b t i l) n b' t' j ↔ Done c n b' t' j := by
  rw [done_fire_iff barrierRun_staged h hrest]
  exact or_iff_left fun hop => hne hop.2.2.2

/-- The exchange takes the early arrivals out of the counter and puts the seed in. -/
lemma counterShows_exchange (hN : 2 ≤ G.gridSize)
    (h : (barrierRun G word calls phases w).Reachable m₀ c) (hn : 0 < c.epoch G.seedBlock)
    (hcalls : c.epoch G.seedBlock ≤ calls)
    (hrest : c.rest G.seedBlock G.lead = .exchange :: l)
    (hshows : CounterShows word c (c.epoch G.seedBlock)) :
    CounterShows word ((barrierRun G word calls phases w).fire c G.seedBlock G.lead .exchange l)
      (c.epoch G.seedBlock) := by
  have hlt := G.gridSize_lt
  have hcard := card_arrivals_lt (c := c) (n := c.epoch G.seedBlock)
  have hbefore := not_done_head hrest
  have hafter : Done ((barrierRun G word calls phases w).fire c G.seedBlock G.lead .exchange l)
      (c.epoch G.seedBlock) G.seedBlock G.lead .exchange := done_fire barrierRun_staged h hrest
  have hfold : ¬ Done ((barrierRun G word calls phases w).fire c G.seedBlock G.lead .exchange l)
      (c.epoch G.seedBlock) G.seedBlock G.lead .foldBack := by
    rw [done_other_iff h hrest (by simp)]
    exact fun hdone => hbefore (done_exchange_of_foldBack hN h hn hcalls hdone)
  have hprior : (c.mem.counters (word (c.epoch G.seedBlock))).toNat =
      (arrivals c (c.epoch G.seedBlock)).card := by
    unfold CounterShows owed seeded at hshows
    rwa [if_neg fun hdone => hbefore hdone.1, if_neg hbefore, Nat.add_zero, Nat.zero_add]
      at hshows
  have harrivals : arrivals ((barrierRun G word calls phases w).fire c G.seedBlock G.lead
      .exchange l) (c.epoch G.seedBlock) = arrivals c (c.epoch G.seedBlock) := by
    ext b
    rw [mem_arrivals, mem_arrivals, done_other_iff h hrest (by simp)]
  unfold CounterShows owed seeded
  rw [if_pos ⟨hafter, hfold⟩, if_pos hafter, harrivals, fire_reg_self, fire_mem]
  simp only [barrierRun, barrierEffect, BarrierMem.put, BarrierMem.current, Function.update_self]
  rw [G.toNat_seed, toNat_toFold, hprior, Nat.mod_eq_of_lt (by omega)]

/-- The fold-back puts the early arrivals back. -/
lemma counterShows_foldBack (hN : 2 ≤ G.gridSize)
    (h : (barrierRun G word calls phases w).Reachable m₀ c) (hn : 0 < c.epoch G.seedBlock)
    (hcalls : c.epoch G.seedBlock ≤ calls)
    (hrest : c.rest G.seedBlock G.lead = .foldBack :: l)
    (hshows : CounterShows word c (c.epoch G.seedBlock)) :
    CounterShows word ((barrierRun G word calls phases w).fire c G.seedBlock G.lead .foldBack l)
      (c.epoch G.seedBlock) := by
  have hlt := G.gridSize_lt
  have hcard := card_arrivals_lt (c := c) (n := c.epoch G.seedBlock)
  have hbefore := not_done_head hrest
  have hexchange : Done c (c.epoch G.seedBlock) G.seedBlock G.lead .exchange := by
    refine done_of_head barrierRun_staged h hrest (by simp [barrierStage])
  have hafter : Done ((barrierRun G word calls phases w).fire c G.seedBlock G.lead .foldBack l)
      (c.epoch G.seedBlock) G.seedBlock G.lead .foldBack := done_fire barrierRun_staged h hrest
  have hexchange' : Done ((barrierRun G word calls phases w).fire c G.seedBlock G.lead .foldBack l)
      (c.epoch G.seedBlock) G.seedBlock G.lead .exchange :=
    done_exchange_of_foldBack hN (h.step (Machine.Step.fire hrest trivial)) hn hcalls hafter
  have harrivals : arrivals ((barrierRun G word calls phases w).fire c G.seedBlock G.lead
      .foldBack l) (c.epoch G.seedBlock) = arrivals c (c.epoch G.seedBlock) := by
    ext b
    rw [mem_arrivals, mem_arrivals, done_other_iff h hrest (by simp)]
  have hsum : (c.mem.counters (word (c.epoch G.seedBlock))).toNat +
      (c.reg G.seedBlock G.lead).toNat =
        2 ^ 31 - (G.gridSize - 1) + (arrivals c (c.epoch G.seedBlock)).card := by
    unfold CounterShows owed seeded at hshows
    rwa [if_pos ⟨hexchange, hbefore⟩, if_pos hexchange] at hshows
  unfold CounterShows owed seeded
  rw [if_neg fun hdone => hdone.2 hafter, if_pos hexchange', harrivals, fire_mem, ← hsum]
  simp only [barrierRun, barrierEffect]
  split_ifs with hzero
  · simp only [BarrierMem.put, BarrierMem.current, Function.update_self]
    rw [BitVec.toNat_add, Nat.mod_eq_of_lt (by omega), Nat.add_zero]
  · rw [not_not.mp hzero]
    rfl

/-- An arrival adds one. -/
lemma counterShows_arrive (h : (barrierRun G word calls phases w).Reachable m₀ c)
    (hb : b ≠ G.seedBlock) (hrest : c.rest b G.lead = .arrive :: l)
    (hshows : CounterShows word c (c.epoch b)) :
    CounterShows word ((barrierRun G word calls phases w).fire c b G.lead .arrive l)
      (c.epoch b) := by
  have hlt := G.gridSize_lt
  have hcard := card_arrivals_lt (c := c) (n := c.epoch b)
  have harrivals : arrivals ((barrierRun G word calls phases w).fire c b G.lead .arrive l)
      (c.epoch b) = insert b (arrivals c (c.epoch b)) := by
    ext b'
    rw [Finset.mem_insert, mem_arrivals, mem_arrivals, done_fire_iff barrierRun_staged h hrest]
    constructor
    · rintro ⟨hne, hdone | ⟨_, rfl, _⟩⟩
      · exact Or.inr ⟨hne, hdone⟩
      · exact Or.inl rfl
    · rintro (rfl | ⟨hne, hdone⟩)
      · exact ⟨hb, Or.inr ⟨rfl, rfl, rfl, rfl⟩⟩
      · exact ⟨hne, Or.inl hdone⟩
  have hnew : b ∉ arrivals c (c.epoch b) := fun hmem =>
    not_done_head hrest (mem_arrivals.mp hmem).2
  have hreg : ((barrierRun G word calls phases w).fire c b G.lead .arrive l).reg G.seedBlock
      G.lead = c.reg G.seedBlock G.lead :=
    fire_reg_of_ne c b G.lead .arrive l fun heq => hb heq.1.symm
  have hexchange : Done ((barrierRun G word calls phases w).fire c b G.lead .arrive l) (c.epoch b)
      G.seedBlock G.lead .exchange ↔ Done c (c.epoch b) G.seedBlock G.lead .exchange :=
    done_other_iff h hrest (by simp)
  have hfold : Done ((barrierRun G word calls phases w).fire c b G.lead .arrive l) (c.epoch b)
      G.seedBlock G.lead .foldBack ↔ Done c (c.epoch b) G.seedBlock G.lead .foldBack :=
    done_other_iff h hrest (by simp)
  have hroom : (c.mem.counters (word (c.epoch b))).toNat + 1 < 2 ^ 32 := by
    have hseeded : seeded c (c.epoch b) ≤ 2 ^ 31 := by
      unfold seeded
      split_ifs <;> omega
    unfold CounterShows at hshows
    omega
  unfold CounterShows owed seeded at hshows ⊢
  rw [hreg, harrivals, Finset.card_insert_of_notMem hnew, fire_mem]
  simp only [hexchange, hfold]
  simp only [barrierRun, barrierEffect, BarrierMem.put, BarrierMem.current, Function.update_self]
  rw [BitVec.toNat_add, BitVec.toNat_one (by omega), Nat.mod_eq_of_lt hroom]
  omega

/-- While no counter is used twice, the counter of a call shows its seed and its arrivals. -/
theorem counter_eq (hN : 2 ≤ G.gridSize) (hfresh : FreshCounters word calls phases)
    (hzero : ZeroCounters word calls m₀) (h : (barrierRun G word calls phases w).Reachable m₀ c)
    (hn : 0 < n) (hcalls : n ≤ calls) (hphases : n ≤ phases) : CounterShows word c n := by
  induction h with
  | init =>
    have hnone : ∀ b t i, ¬ Done ((barrierRun G word calls phases w).init m₀) n b t i := by
      rintro b t i (hlt | ⟨heq, _⟩)
      · exact Nat.not_lt_zero n hlt
      · exact hn.ne' heq
    unfold CounterShows owed seeded
    rw [if_neg fun hdone => hnone _ _ _ hdone.1, if_neg (hnone _ _ _),
      show ((barrierRun G word calls phases w).init m₀).mem.counters (word n) = 0#32 from
        hzero n hn hcalls]
    simp [arrivals, hnone]
  | @step c c' hc hstep ih =>
    cases hstep with
    | @fire b t i l hrest _ =>
      by_cases hhit : c.epoch b = n ∧ i.IsRmw
      · obtain ⟨rfl, hrmw⟩ := hhit
        have huses : i.usesCounter := by rcases hrmw with rfl | rfl | rfl <;> rfl
        obtain ⟨_, _, _, hruns⟩ := runs_of_barrier_head hN hc hrest huses
        rcases hrmw with rfl | rfl | rfl
        · obtain ⟨rfl, rfl⟩ := hruns
          exact counterShows_exchange hN hc hn hcalls hrest ih
        · obtain ⟨rfl, rfl⟩ := hruns
          exact counterShows_foldBack hN hc hn hcalls hrest ih
        · obtain ⟨rfl, hb⟩ := hruns
          exact counterShows_arrive hc hb hrest ih
      · unfold CounterShows
        rw [counter_frame hN hfresh hc hn hcalls hphases hrest hhit, owed_frame hc hrest hhit,
          seeded_frame hc hrest hhit, arrivals_frame hc hrest hhit]
        exact ih
    | @launch b _ hidle =>
      obtain ⟨howed, hseeded, harrivals⟩ := counter_launch word phases w hN hn hcalls hidle
      unfold CounterShows
      rw [howed, hseeded, harrivals]
      exact ih

end Counter

/-! ## Phases do not overlap -/

section Separation

variable {G : BarrierGrid} {δ : Type*} {word : ℕ → ℕ} {calls phases n : ℕ} {w : Phases G δ}
  {c : BarrierConfig G δ} {m₀ : BarrierMem δ} {b b' : Fin G.gridSize} {t : Fin G.blockSize}
  {i : BarrierOp} {l : List BarrierOp}

/-- The leader of every block arrives at every call. -/
lemma mem_prog_arrivalOp (hN : 2 ≤ G.gridSize) (hn : 0 < n) (hcalls : n ≤ calls) :
    arrivalOp b ∈ (barrierRun G word calls phases w).prog n b G.lead := by
  rw [mem_barrierProg hN]
  refine ⟨hn, Or.inr ⟨hcalls, ?_⟩⟩
  unfold arrivalOp
  split_ifs with hb
  · exact ⟨rfl, hb⟩
  · exact ⟨rfl, hb⟩

/-- It arrives at the second stage. -/
lemma stage_arrivalOp : barrierStage (arrivalOp b) = 2 := by
  unfold arrivalOp
  split_ifs <;> rfl

/-- The blocks that arrive by `atomicAdd` are all blocks but one. -/
lemma arrivals_of_card_ge (hcard : G.gridSize - 1 ≤ (arrivals c n).card)
    (hb : b ≠ G.seedBlock) : b ∈ arrivals c n := by
  have hsub : arrivals c n ⊆ Finset.univ.erase G.seedBlock := fun b hmem =>
    Finset.mem_erase.mpr ⟨(mem_arrivals.mp hmem).1, Finset.mem_univ b⟩
  have hall : (Finset.univ.erase G.seedBlock).card = G.gridSize - 1 := by
    rw [Finset.card_erase_of_mem (Finset.mem_univ _), Finset.card_univ, Fintype.card_fin]
  rw [Finset.eq_of_subset_of_card_le hsub (hall.le.trans hcard)]
  exact Finset.mem_erase.mpr ⟨hb, Finset.mem_univ b⟩

/-- Bit 31 of the counter of a call is set only when every block has arrived. -/
theorem arrivedAt_of_released (hN : 2 ≤ G.gridSize) (hfresh : FreshCounters word calls phases)
    (hzero : ZeroCounters word calls m₀) (h : (barrierRun G word calls phases w).Reachable m₀ c)
    (hn : 0 < n) (hcalls : n ≤ calls) (hphases : n ≤ phases)
    (hreleased : ReleaseBit (c.mem.counters (word n))) (b : Fin G.gridSize) : ArrivedAt c n b := by
  have hshows := counter_eq hN hfresh hzero h hn hcalls hphases
  have hcard := card_arrivals_lt (c := c) (n := n)
  have hlt := G.gridSize_lt
  rw [releaseBit_iff] at hreleased
  unfold CounterShows at hshows
  have hexchange : Done c n G.seedBlock G.lead .exchange := by
    by_contra hnot
    rw [show seeded c n = 0 from if_neg hnot] at hshows
    omega
  rw [show seeded c n = 2 ^ 31 - (G.gridSize - 1) from if_pos hexchange] at hshows
  unfold ArrivedAt arrivalOp
  split_ifs with hb
  · rw [hb]
    exact hexchange
  · exact (mem_arrivals.mp (arrivals_of_card_ge (by omega) hb)).2

/-- A block whose leader has arrived is through with the phase before the call. -/
theorem done_work_of_arrivedAt (hN : 2 ≤ G.gridSize)
    (h : (barrierRun G word calls phases w).Reachable m₀ c) (hn : 0 < n) (hcalls : n ≤ calls)
    (harrived : ArrivedAt c n b) (t : Fin G.blockSize) (k : ℕ) : Done c n b t (.work k) := by
  have hsync : ∀ t, .syncThreads ∈ (barrierRun G word calls phases w).prog n b t := fun t =>
    (mem_barrierProg hN).mpr ⟨hn, Or.inr ⟨hcalls, trivial⟩⟩
  have hlead : Done c n b G.lead .syncThreads :=
    harrived.of_stage_lt barrierRun_staged h (mem_prog_arrivalOp hN hn hcalls)
      (by rw [stage_arrivalOp]; decide)
  exact h.done_of_barrier barrierRun_staged (fun _ => True) hn (hsync G.lead)
    (fun t _ => hsync t) (fun c hopen t _ => hopen t) hlead trivial (by simp [barrierStage])

/-- A thread leaves a call only when every block has arrived. -/
theorem arrivedAt_of_leaves (hN : 2 ≤ G.gridSize) (hfresh : FreshCounters word calls phases)
    (hzero : ZeroCounters word calls m₀) (h : (barrierRun G word calls phases w).Reachable m₀ c)
    (hn : 0 < n) (hcalls : n ≤ calls) (hphases : n ≤ phases) (hleaves : Leaves c n b t)
    (b' : Fin G.gridSize) : ArrivedAt c n b' := by
  have hspin : .spin ∈ (barrierRun G word calls phases w).prog n b t :=
    (mem_barrierProg hN).mpr ⟨hn, Or.inr ⟨hcalls, trivial⟩⟩
  refine h.of_done_guard (P := fun c => ArrivedAt c n b') hn hspin
    (fun _ _ _ hstep harrived => harrived.step hstep) ?_ hleaves
  rintro c l hc rfl _ hopen
  exact arrivedAt_of_released hN hfresh hzero hc hn hcalls hphases hopen b'

/-- A block that has arrived has entered the call. -/
lemma entered_of_arrivedAt (hN : 2 ≤ G.gridSize)
    (h : (barrierRun G word calls phases w).Reachable m₀ c) (hn : 0 < n) (hcalls : n ≤ calls)
    (harrived : ArrivedAt c n b) : Entered c n b := by
  have hwork := done_work_of_arrivedAt hN h hn hcalls harrived
  rcases harrived with hlt | ⟨heq, _⟩
  · exact Or.inl hlt
  · exact Or.inr ⟨heq, fun t k => (hwork t k).not_mem heq.symm⟩

/-! ## The barrier does not deadlock -/

/-- When every block has arrived and block 0 has folded back, the bit is set. -/
lemma released_of_all (hN : 2 ≤ G.gridSize) (hfresh : FreshCounters word calls phases)
    (hzero : ZeroCounters word calls m₀) (h : (barrierRun G word calls phases w).Reachable m₀ c)
    (hn : 0 < n) (hcalls : n ≤ calls) (hphases : n ≤ phases)
    (hfold : Done c n G.seedBlock G.lead .foldBack)
    (harrive : ∀ b, b ≠ G.seedBlock → Done c n b G.lead .arrive) :
    ReleaseBit (c.mem.counters (word n)) := by
  have hshows := counter_eq hN hfresh hzero h hn hcalls hphases
  have hexchange := done_exchange_of_foldBack hN h hn hcalls hfold
  have hall : arrivals c n = Finset.univ.erase G.seedBlock := by
    ext b
    rw [mem_arrivals, Finset.mem_erase]
    exact ⟨fun hb => ⟨hb.1, Finset.mem_univ b⟩, fun hb => ⟨hb.1, harrive b hb.1⟩⟩
  have hlt := G.gridSize_lt
  unfold CounterShows owed seeded at hshows
  rw [if_neg fun hdone => hdone.2 hfold, if_pos hexchange, hall,
    Finset.card_erase_of_mem (Finset.mem_univ _), Finset.card_univ, Fintype.card_fin] at hshows
  rw [releaseBit_iff]
  omega

/-- An operation of the call that is not executed keeps its block behind the spin loop. -/
lemma behind_of_not_done (h : (barrierRun G word calls phases w).Reachable m₀ c) {n : ℕ}
    (hn : n = c.epoch b)
    {k : ℕ} (hlt : barrierStage i < k) (hnot : ¬ Done c n b' t i) :
    (barrierRun G word calls phases w).Behind barrierStage c b k := by
  subst hn
  rcases Nat.lt_trichotomy (c.epoch b') (c.epoch b) with hless | heq | hgt
  · exact Machine.Behind.of_epoch_lt h hless
  · have hmem : i ∈ c.rest b' t := by
      by_contra hmem
      exact hnot (Or.inr ⟨heq.symm, hmem⟩)
    exact Machine.Behind.of_mem_rest barrierRun_staged h heq hmem hlt
  · exact absurd (Or.inl hgt) hnot

/-- A block is held up before its arrival by a thread that is still in the phase. -/
lemma exists_head_of_syncThreads (h : (barrierRun G word calls phases w).Reachable m₀ c)
    (hblocked : ¬ barrierPasses word c b t .syncThreads) :
    ∃ t' j l', c.rest b t' = j :: l' ∧ barrierStage j < barrierStage .syncThreads := by
  obtain ⟨t', hnot⟩ := not_forall.mp hblocked
  refine ⟨t', h.exists_head_of_not_arrived barrierRun_staged hnot fun j _ heq => ?_⟩
  cases j <;> simp [barrierStage] at heq ⊢

/-- Every thread that is held up has somebody to wait for. -/
theorem barrier_behind (hN : 2 ≤ G.gridSize) (hfresh : FreshCounters word calls phases)
    (hzero : ZeroCounters word calls m₀) (h : (barrierRun G word calls phases w).Reachable m₀ c)
    (hrest : c.rest b t = i :: l) (hblocked : ¬ barrierPasses word c b t i) :
    (barrierRun G word calls phases w).Behind barrierStage c b (barrierStage i) := by
  cases i with
  | syncThreads =>
    obtain ⟨t', j, l', hrest', hlt⟩ := exists_head_of_syncThreads h hblocked
    exact Or.inr ⟨b, t', j, l', hrest', Or.inr ⟨rfl, hlt⟩⟩
  | spin =>
    obtain ⟨hpos, hcalls, hphases, _⟩ := runs_of_barrier_head hN h hrest rfl
    by_cases hfold : Done c (c.epoch b) G.seedBlock G.lead .foldBack
    · by_cases harrive : ∀ b', b' ≠ G.seedBlock → Done c (c.epoch b) b' G.lead .arrive
      · exact absurd (released_of_all hN hfresh hzero h hpos hcalls hphases hfold harrive) hblocked
      · obtain ⟨b', hb'⟩ := not_forall.mp harrive
        obtain ⟨_, hnot⟩ := Classical.not_imp.mp hb'
        exact behind_of_not_done h rfl (by simp [barrierStage]) hnot
    · exact behind_of_not_done h rfl (by simp [barrierStage]) hfold
  | _ => exact absurd trivial hblocked

/-- As long as a block is unfinished, some thread can execute its next operation or some block
can start its next phase. -/
theorem barrier_progress (hN : 2 ≤ G.gridSize) (hfresh : FreshCounters word calls phases)
    (hzero : ZeroCounters word calls m₀) (h : (barrierRun G word calls phases w).Reachable m₀ c)
    (hrun : ∃ b, (barrierRun G word calls phases w).Unfinished c b) :
    (∃ b t i l, c.rest b t = i :: l ∧ barrierPasses word c b t i) ∨
      ∃ b, c.epoch b < phases ∧ ∀ t, c.rest b t = [] := by
  obtain ⟨b, hb⟩ := hrun
  by_cases hbusy : ∃ b t, c.rest b t ≠ []
  · exact exists_enabled_of_stage (M := barrierRun G word calls phases w) barrierStage
      (fun _ _ _ _ hrest hblocked => barrier_behind hN hfresh hzero h hrest hblocked) hbusy
  · have hidle : ∀ b t, c.rest b t = [] := fun b t =>
      not_not.mp fun hne => hbusy ⟨b, t, hne⟩
    rcases hb with hmore | ⟨t, hne⟩
    · exact Or.inr ⟨b, hmore, hidle b⟩
    · exact absurd (hidle b t) hne

/-- The step that an unfinished block leaves to the grid. -/
lemma barrier_exists_step (hN : 2 ≤ G.gridSize) (hfresh : FreshCounters word calls phases)
    (hzero : ZeroCounters word calls m₀) (h : (barrierRun G word calls phases w).Reachable m₀ c)
    (hrun : ∃ b, (barrierRun G word calls phases w).Unfinished c b) :
    ∃ c', (barrierRun G word calls phases w).Step c c' := by
  rcases barrier_progress hN hfresh hzero h hrun with
    ⟨b, t, i, l, hrest, hpass⟩ | ⟨b, hmore, hidle⟩
  · exact ⟨_, Machine.Step.fire hrest hpass⟩
  · exact ⟨_, Machine.Step.launch hmore hidle⟩

end Separation

/-! ## The calls of the kernel -/

/-- The calls of `sync_grid()`, under the numbers the kernel gives them. -/
inductive SyncGridCall
  /-- #1: routing, activation quantization and histogram -/
  | one
  /-- #3: prefix sum and tile schedule -/
  | three
  /-- #4: scatter -/
  | four
  /-- #5: the tiles -/
  | five
deriving DecidableEq, Repr

/-- The calls of `sync_grid()` in program order. -/
def syncGridCalls : List SyncGridCall := [.one, .three, .four, .five]

/-- The word of the counter that `sync_grid` uses when `barrier_site` calls lie behind the block:
`ws->barrier[barrier_site]` with a fresh phase `0`. -/
def siteWord (barrierSite : ℕ) : ℕ := counterWord (2 * barrierSite) 0

/-- `sizeof(Workspace)`, the region the launcher zeroes; all members are 4 bytes wide and the
barrier counters come first. -/
def Build.workspaceBytes (B : Build) : ℕ :=
  4 * (2 * Build.numBarrierSites + B.numExperts + (B.numExperts + 1) + B.numExperts + 1 +
    B.maxTiles + B.maxTiles + B.tpMaxC + 1 + 1 + 1)

section Kernel

variable {G : BarrierGrid} {δ : Type*} {w : Phases G δ} {c : BarrierConfig G δ} {m₀ : BarrierMem δ}

/-- One launch of the kernel: its phases, each but the last ended by a call of `sync_grid()`. -/
def syncGridRun (G : BarrierGrid) (w : Phases G δ) :
    Machine (Fin G.gridSize) (Fin G.blockSize) BarrierOp (BarrierMem δ) (BitVec 32) :=
  barrierRun G (fun n => siteWord (n - 1)) syncGridCalls.length (syncGridCalls.length + 1) w

/-- The launcher's `cudaMemsetAsync` over the workspace. -/
def ZeroWorkspace (B : Build) (m : BarrierMem δ) : Prop :=
  ∀ k, 4 * (k + 1) ≤ B.workspaceBytes → m.counters k = 0#32

/-- With a site for each call every call finds a counter of its own. -/
lemma freshCounters_siteWord (calls phases : ℕ) :
    FreshCounters (fun n => siteWord (n - 1)) calls phases := by
  rintro n ⟨hn, _, _⟩ n' ⟨hn', _, _⟩ heq
  simp only [siteWord, counterWord] at heq
  omega

/-- The words of the sites lie in the workspace. -/
lemma siteWord_le (B : Build) {barrierSite : ℕ} (h : barrierSite < Build.numBarrierSites) :
    4 * (siteWord barrierSite + 1) ≤ B.workspaceBytes := by
  unfold siteWord counterWord Build.workspaceBytes
  omega

/-- A zeroed workspace has zeroed counters. -/
lemma zeroCounters_of_zeroWorkspace {B : Build} (h : ZeroWorkspace B m₀) :
    ZeroCounters (fun n => siteWord (n - 1)) syncGridCalls.length m₀ := by
  intro n hn hcalls
  refine h _ (siteWord_le B ?_)
  have : syncGridCalls.length = Build.numBarrierSites := rfl
  omega

/-- The grid barrier separates the phases of a launch.  From a zeroed workspace, for every grid of
at least two co-resident blocks and every interleaving:

* a thread leaves the call at a site only when every block has arrived there, and by then every
  thread of every block is through with every phase up to the call;
* bit 31 of the counter of a site is set only when every block has arrived there;
* as long as a block is unfinished, some thread can execute its next operation or some block can
  start its next phase;
* a block that is about to access a counter is at one of the `NUM_BARRIER_SITES` sites, and the
  counter lies in the zeroed workspace. -/
theorem sync_grid_separates (B : Build) (hN : 2 ≤ G.gridSize) (hzero : ZeroWorkspace B m₀)
    (h : (syncGridRun G w).Reachable m₀ c) :
    (∀ site < syncGridCalls.length, ∀ b t, Leaves c (site + 1) b t →
      ∀ b', ArrivedAt c (site + 1) b' ∧
        ∀ p ≤ site, ∀ t' k, Done c (p + 1) b' t' (.work k)) ∧
    (∀ site < syncGridCalls.length, ReleaseBit (c.mem.counters (siteWord site)) →
      ∀ b', ArrivedAt c (site + 1) b') ∧
    ((∃ b, (syncGridRun G w).Unfinished c b) →
      (∃ b t i l, c.rest b t = i :: l ∧ (syncGridRun G w).enabled c b t i) ∨
        ∃ b, c.epoch b < (syncGridRun G w).epochs ∧ ∀ t, c.rest b t = []) ∧
    (∀ b t i l, c.rest b t = i :: l → i.usesCounter →
      c.epoch b - 1 < Build.numBarrierSites ∧
        4 * (siteWord (c.epoch b - 1) + 1) ≤ B.workspaceBytes) := by
  have hfresh := freshCounters_siteWord syncGridCalls.length (syncGridCalls.length + 1)
  have hcounters := zeroCounters_of_zeroWorkspace hzero
  refine ⟨?_, ?_, ?_, ?_⟩
  · intro site hsite b t hleaves b'
    have harrived : ArrivedAt c (site + 1) b' :=
      arrivedAt_of_leaves hN hfresh hcounters h (Nat.succ_pos site) hsite
        (by omega) hleaves b'
    refine ⟨harrived, fun p hp t' k => ?_⟩
    rcases Nat.eq_or_lt_of_le hp with rfl | hlt
    · exact done_work_of_arrivedAt hN h (Nat.succ_pos p) hsite harrived t' k
    · rcases harrived with hpast | ⟨heq, _⟩
      · exact Or.inl (by omega)
      · exact Or.inl (by omega)
  · intro site hsite hreleased b'
    exact arrivedAt_of_released hN hfresh hcounters h (Nat.succ_pos site) hsite (by omega)
      hreleased b'
  · exact barrier_progress hN hfresh hcounters h
  · intro b t i l hrest huses
    obtain ⟨hpos, hcalls, _, _⟩ := runs_of_barrier_head hN h hrest huses
    have hlength : syncGridCalls.length = Build.numBarrierSites := rfl
    have hsite : c.epoch b - 1 < Build.numBarrierSites := by omega
    exact ⟨hsite, siteWord_le B hsite⟩

/-- Two blocks of one thread on a device with 132 multiprocessors. -/
def twoBlocks : BarrierGrid where
  gridSize := 2
  blockSize := 1
  smCount := 132
  gridSize_pos := by norm_num
  blockSize_pos := by norm_num
  coResident := by norm_num
  smCount_lt := by norm_num

/-- Phases without memory operations. -/
def noWork (G : BarrierGrid) : Phases G Unit where
  count _ _ _ := 0
  act _ _ _ _ d := d

/-- A zeroed workspace. -/
def zeroedMem : BarrierMem Unit := ⟨fun _ => 0#32, ()⟩

/-- The separation of the phases when block 0 is about to leave the fourth call: it has left the
others, and the release bit of the counter is set. -/
theorem sync_grid_separates_releasing : ∃ c : BarrierConfig twoBlocks Unit,
    (∃ b t l, c.epoch b = 4 ∧ c.rest b t = .spin :: l ∧ ReleaseBit (c.mem.counters (siteWord 3)) ∧
      Leaves c 3 b t) ∧
    (∀ site < syncGridCalls.length, ∀ b t, Leaves c (site + 1) b t →
      ∀ b', ArrivedAt c (site + 1) b' ∧
        ∀ p ≤ site, ∀ t' k, Done c (p + 1) b' t' (.work k)) ∧
    (∀ site < syncGridCalls.length, ReleaseBit (c.mem.counters (siteWord site)) →
      ∀ b', ArrivedAt c (site + 1) b') ∧
    ((∃ b, (syncGridRun twoBlocks (noWork twoBlocks)).Unfinished c b) →
      (∃ b t i l, c.rest b t = i :: l ∧
          (syncGridRun twoBlocks (noWork twoBlocks)).enabled c b t i) ∨
        ∃ b, c.epoch b < (syncGridRun twoBlocks (noWork twoBlocks)).epochs ∧
          ∀ t, c.rest b t = []) ∧
    (∀ b t i l, c.rest b t = i :: l → i.usesCounter →
      c.epoch b - 1 < Build.numBarrierSites ∧
        4 * (siteWord (c.epoch b - 1) + 1) ≤ deepseekTP.workspaceBytes) := by
  have hzero : ZeroWorkspace deepseekTP zeroedMem := fun _ _ => rfl
  obtain ⟨c, hc, hfinished⟩ := Machine.exists_finished fun c hc =>
    barrier_exists_step (w := noWork twoBlocks) (by decide)
      (freshCounters_siteWord syncGridCalls.length (syncGridCalls.length + 1))
      (zeroCounters_of_zeroWorkspace hzero) hc
  have hepoch : c.epoch twoBlocks.seedBlock = 5 := (hc.of_not_unfinished (hfinished _)).1
  have hran : (syncGridRun twoBlocks (noWork twoBlocks)).Ran c 4 twoBlocks.seedBlock twoBlocks.lead
      .spin :=
    ⟨(mem_barrierProg (by decide)).mpr ⟨by decide, Or.inr ⟨by decide, trivial⟩⟩,
      Or.inl (by rw [hepoch]; decide)⟩
  obtain ⟨c', hc', hepoch', ⟨l, hrest⟩, hpass⟩ := hran.exists_head barrierRun_staged hc
  refine ⟨c', ⟨_, _, l, hepoch', hrest, ?_, Or.inl ?_⟩,
    sync_grid_separates deepseekTP (by decide) hzero hc'⟩
  · have hbit : ReleaseBit (c'.mem.counters (siteWord (c'.epoch twoBlocks.seedBlock - 1))) := hpass
    rwa [hepoch'] at hbit
  · rw [hepoch']
    decide

end Kernel

/-! ## One counter pair for many calls -/

section Reuse

variable {G : BarrierGrid} {δ : Type*} {calls : ℕ} {w : Phases G δ} {c : BarrierConfig G δ}
  {m₀ : BarrierMem δ}

/-- The counter word the `n`-th call on one pair uses: every call increments the `uint32_t` phase
that starts at `0`. -/
def pingPong (n : ℕ) : ℕ := counterWord 0 ((n - 1) % 2 ^ 32)

/-- Every block makes `calls` successive calls of `grid_barrier` on one counter pair. -/
def reuseRun (G : BarrierGrid) (calls : ℕ) (w : Phases G δ) :
    Machine (Fin G.gridSize) (Fin G.blockSize) BarrierOp (BarrierMem δ) (BitVec 32) :=
  barrierRun G pingPong calls calls w

/-- The pair was zeroed. -/
def ZeroPair (m : BarrierMem δ) : Prop := ∀ slot < 2, m.counters slot = 0#32

/-- The pair has two words. -/
lemma pingPong_lt (n : ℕ) : pingPong n < 2 := by
  unfold pingPong counterWord
  omega

/-- A zeroed pair has zeroed counters. -/
lemma zeroCounters_of_zeroPair (hzero : ZeroPair m₀) : ZeroCounters pingPong calls m₀ :=
  fun n _ _ => hzero _ (pingPong_lt n)

/-- The first two calls use different slots. -/
lemma freshCounters_pingPong {phases : ℕ} (h : calls ≤ 2 ∨ phases ≤ 2) :
    FreshCounters pingPong calls phases := by
  rintro n ⟨hn, hc, hp⟩ n' ⟨hn', hc', hp'⟩ heq
  simp only [pingPong, counterWord] at heq
  omega

/-- The grid can run through its first two calls, after which the first slot holds the release
bit and nothing else. -/
lemma exists_two_calls (hN : 2 ≤ G.gridSize) (hzero : ZeroPair m₀) (hcalls : 2 ≤ calls) :
    ∃ c, (reuseRun G calls w).Reachable m₀ c ∧
      (∀ b, c.epoch b = 2 ∧ ∀ t, c.rest b t = []) ∧
      (c.mem.counters (pingPong 1)).toNat = 2 ^ 31 := by
  have hfresh : FreshCounters pingPong calls 2 := freshCounters_pingPong (Or.inr le_rfl)
  have hpair : ZeroCounters pingPong calls m₀ := zeroCounters_of_zeroPair hzero
  obtain ⟨c, hc, hfinished⟩ :=
    Machine.exists_finished fun c hc => barrier_exists_step (w := w) hN hfresh hpair hc
  have hidle : ∀ b, c.epoch b = 2 ∧ ∀ t, c.rest b t = [] := fun b =>
    hc.of_not_unfinished (hfinished b)
  have hpast : ∀ b t i, Done c 1 b t i := fun b t i => Or.inl (by rw [(hidle b).1]; decide)
  refine ⟨c, hc.mono_epochs hcalls, hidle, ?_⟩
  have hshows := counter_eq hN hfresh hpair hc (n := 1) Nat.one_pos (by omega) (by omega)
  have hall : arrivals c 1 = Finset.univ.erase G.seedBlock := by
    ext b
    rw [mem_arrivals, Finset.mem_erase]
    exact ⟨fun hb => ⟨hb.1, Finset.mem_univ b⟩, fun hb => ⟨hb.1, hpast _ _ _⟩⟩
  have hlt := G.gridSize_lt
  unfold CounterShows owed seeded at hshows
  rw [if_neg fun hdone => hdone.2 (hpast _ _ _), if_pos (hpast _ _ _), hall,
    Finset.card_erase_of_mem (Finset.mem_univ _), Finset.card_univ, Fintype.card_fin] at hshows
  omega

/-- Block `b₁` runs its third phase while the others have not left their second; the slot of its
call still holds the release bit. -/
structure Racing (c : BarrierConfig G δ) (b₁ : Fin G.gridSize) : Prop where
  others : ∀ b, b ≠ b₁ → c.epoch b = 2 ∧ ∀ t, c.rest b t = []
  ahead : c.epoch b₁ = 3
  stale : (c.mem.counters (pingPong 3)).toNat =
    2 ^ 31 + if .arrive ∈ c.rest b₁ G.lead then 0 else 1

/-- A block that races ahead is not held up by the barrier. -/
lemma Racing.exists_enabled {b₁ : Fin G.gridSize} (hrace : Racing c b₁)
    (h : (reuseRun G calls w).Reachable m₀ c) (hbusy : ∃ t, c.rest b₁ t ≠ []) :
    ∃ t i l, c.rest b₁ t = i :: l ∧ barrierPasses pingPong c b₁ t i := by
  have hself : ∀ {b t i l}, c.rest b t = i :: l → b = b₁ := by
    intro b t i l hrest
    by_contra hne
    rw [(hrace.others b hne).2 t] at hrest
    cases hrest
  have hblock : ∀ b t i l, c.rest b t = i :: l → ¬ barrierPasses pingPong c b t i →
      (barrierRun G pingPong calls 2 w).Behind barrierStage c b (barrierStage i) := by
    intro b t i l hrest hblocked
    obtain rfl := hself hrest
    cases i with
    | syncThreads =>
      obtain ⟨t', j, l', hrest', hlt⟩ := exists_head_of_syncThreads h hblocked
      exact Or.inr ⟨b, t', j, l', hrest', Or.inr ⟨rfl, hlt⟩⟩
    | spin =>
      refine absurd ?_ hblocked
      show ReleaseBit (c.mem.counters (pingPong (c.epoch b)))
      rw [releaseBit_iff, hrace.ahead, hrace.stale]
      exact Nat.le_add_right _ _
    | _ => exact absurd trivial hblocked
  obtain ⟨t, hne⟩ := hbusy
  rcases exists_enabled_of_stage (M := barrierRun G pingPong calls 2 w) barrierStage hblock
      ⟨b₁, t, hne⟩ with ⟨b, t, i, l, hrest, hpass⟩ | ⟨b, hmore, _⟩
  · obtain rfl := hself hrest
    exact ⟨t, i, l, hrest, hpass⟩
  · have hepoch : 2 ≤ c.epoch b := by
      by_cases hb : b = b₁
      · rw [hb, hrace.ahead]
        decide
      · exact (hrace.others b hb).1.ge
    exact absurd hmore (Nat.not_lt.mpr hepoch)

/-- A block that races ahead goes on doing so. -/
lemma Racing.fire {b₁ : Fin G.gridSize} {t : Fin G.blockSize} {i : BarrierOp}
    {l : List BarrierOp} (hN : 2 ≤ G.gridSize) (hb₁ : b₁ ≠ G.seedBlock) (hrace : Racing c b₁)
    (h : (reuseRun G calls w).Reachable m₀ c) (hrest : c.rest b₁ t = i :: l) :
    Racing ((reuseRun G calls w).fire c b₁ t i l) b₁ where
  others b hb := by
    refine ⟨(hrace.others b hb).1, fun t' => ?_⟩
    rw [fire_rest_of_ne c b₁ t i l fun heq => hb heq.1]
    exact (hrace.others b hb).2 t'
  ahead := hrace.ahead
  stale := by
    have hstale := hrace.stale
    have hsame : i ≠ .arrive →
        (.arrive ∈ ((reuseRun G calls w).fire c b₁ t i l).rest b₁ G.lead ↔
          .arrive ∈ c.rest b₁ G.lead) := fun hne =>
      mem_rest_fire_iff b₁ G.lead .arrive hrest fun heq => hne heq.2.symm
    cases i with
    | work k => rw [fire_mem, if_congr (hsame (by simp)) rfl rfl]; exact hstale
    | syncThreads => rw [fire_mem, if_congr (hsame (by simp)) rfl rfl]; exact hstale
    | spin => rw [fire_mem, if_congr (hsame (by simp)) rfl rfl]; exact hstale
    | exchange => exact absurd (runs_of_barrier_head hN h hrest rfl).2.2.2.2 hb₁
    | foldBack => exact absurd (runs_of_barrier_head hN h hrest rfl).2.2.2.2 hb₁
    | arrive =>
      obtain ⟨_, _, _, rfl, _⟩ := runs_of_barrier_head hN h hrest rfl
      have hgone : .arrive ∉ ((reuseRun G calls w).fire c b₁ G.lead .arrive l).rest b₁ G.lead :=
        (done_fire (M := reuseRun G calls w) barrierRun_staged h hrest).not_mem rfl
      rw [if_pos (by rw [hrest]; exact List.mem_cons_self), Nat.add_zero] at hstale
      rw [if_neg hgone, fire_mem]
      simp only [reuseRun, barrierRun, barrierEffect, BarrierMem.put, BarrierMem.current,
        hrace.ahead, Function.update_self]
      rw [BitVec.toNat_add, BitVec.toNat_one (by omega), hstale, Nat.mod_eq_of_lt (by norm_num)]

/-- From the third call on, a block can leave a call that block 0 has not entered. -/
theorem exists_early_exit (w : Phases G δ) (hN : 2 ≤ G.gridSize) (hzero : ZeroPair m₀)
    (hcalls : 3 ≤ calls) :
    ∃ c, (reuseRun G calls w).Reachable m₀ c ∧
      (∃ b, Leaves c 3 b G.lead) ∧ ¬ Entered c 3 G.seedBlock := by
  obtain ⟨c, hc, hidle, hslot⟩ := exists_two_calls (w := w) hN hzero (by omega : 2 ≤ calls)
  let b₁ : Fin G.gridSize := ⟨1, by omega⟩
  have hb₁ : b₁ ≠ G.seedBlock := fun heq => absurd (congrArg Fin.val heq) Nat.one_ne_zero
  have hlaunch : (reuseRun G calls w).Reachable m₀ ((reuseRun G calls w).launch c b₁) := by
    refine hc.step (Machine.Step.launch ?_ (hidle b₁).2)
    rw [(hidle b₁).1]
    exact hcalls
  have harrive : .arrive ∈ ((reuseRun G calls w).launch c b₁).rest b₁ G.lead := by
    rw [launch_rest_self, (hidle b₁).1]
    exact (mem_barrierProg hN).mpr ⟨by decide, Or.inr ⟨hcalls, rfl, hb₁⟩⟩
  have hrace : Racing ((reuseRun G calls w).launch c b₁) b₁ := by
    refine ⟨fun b hb => ?_, ?_, ?_⟩
    · rw [launch_epoch_of_ne c b₁ hb, launch_rest_of_ne c b₁ hb]
      exact hidle b
    · rw [launch_epoch_self, (hidle b₁).1]
    · rw [if_pos harrive]
      exact hslot
  obtain ⟨c', hc', hrace', hidle'⟩ := hlaunch.exists_idle (P := fun c => Racing c b₁) b₁
    (fun c hc hrace hbusy => by
      obtain ⟨t, i, l, hrest, hpass⟩ := hrace.exists_enabled hc hbusy
      exact ⟨t, i, l, hrest, hpass, hrace.fire hN hb₁ hc hrest⟩) hrace
  refine ⟨c', hc', ⟨b₁, Or.inr ⟨hrace'.ahead.symm, ?_⟩⟩, ?_⟩
  · rw [hidle' G.lead]
    exact List.not_mem_nil
  · unfold Entered
    rw [(hrace'.others G.seedBlock hb₁.symm).1]
    omega

/-- On one counter pair `grid_barrier` keeps its contract, that no thread leaves its `n`-th call
before every block has entered its `n`-th call, exactly when every block makes at most two
calls. -/
theorem reuse_contract_iff (hN : 2 ≤ G.gridSize) (hzero : ZeroPair m₀) (calls : ℕ)
    (w : Phases G δ) :
    (∀ c, (reuseRun G calls w).Reachable m₀ c → ∀ n b t, 0 < n → n ≤ calls → Leaves c n b t →
      ∀ b', Entered c n b') ↔ calls ≤ 2 := by
  constructor
  · intro hcontract
    by_contra hmany
    have hcalls : 3 ≤ calls := by omega
    obtain ⟨c, hc, ⟨b, hleaves⟩, hnot⟩ := exists_early_exit w hN hzero hcalls
    exact hnot (hcontract c hc 3 b G.lead (by decide) hcalls hleaves G.seedBlock)
  · intro hfew c hc n b t hn hcalls hleaves b'
    have hfresh : FreshCounters pingPong calls calls := freshCounters_pingPong (Or.inl hfew)
    have harrived := arrivedAt_of_leaves hN hfresh (zeroCounters_of_zeroPair hzero) hc hn hcalls
      hcalls hleaves b'
    exact entered_of_arrivedAt hN hc hn hcalls harrived

/-- Two blocks with two calls on one pair. -/
theorem reuse_contract_iff_twoBlocks :
    (∀ c, (reuseRun twoBlocks 2 (noWork twoBlocks)).Reachable zeroedMem c → ∀ n b t, 0 < n →
      n ≤ 2 → Leaves c n b t → ∀ b', Entered c n b') ↔ 2 ≤ 2 :=
  reuse_contract_iff (by decide) (fun _ _ => rfl) 2 (noWork twoBlocks)

/-- Two blocks that call the barrier three times on one zeroed pair: the second block can leave
its third call before the first has entered its own. -/
theorem reuse_contract_fails :
    ¬ ∀ c, (reuseRun twoBlocks 3 (noWork twoBlocks)).Reachable zeroedMem c → ∀ n b t, 0 < n →
      n ≤ 3 → Leaves c n b t → ∀ b', Entered c n b' := by
  intro hcontract
  have hzero : ZeroPair zeroedMem := fun _ _ => rfl
  obtain ⟨c, hc, ⟨b, hleaves⟩, hnot⟩ :=
    exists_early_exit (noWork twoBlocks) (by decide) hzero le_rfl
  exact hnot (hcontract c hc 3 b twoBlocks.lead (by decide) le_rfl hleaves twoBlocks.seedBlock)

end Reuse

end UnimonoMoe
