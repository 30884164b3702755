import UnimonoMoe.Kernel.Pipeline
import UnimonoMoe.Lib.Epochs
import UnimonoMoe.Lib.PhaseBarrier
import Mathlib.Data.Fintype.Sum

/-!
# The operand rings as a machine

The tile loop of a block.  For every tile `up_phase` and then `down_phase` run over a sequence of
steps; in each step a warpgroup multiplies an activation block by a weight tile.  `up_phase` stages
the activations in a ring of `A_STAGES` slots with `cp.async`, and both phases load the weights into
a ring per warpgroup with bulk loads that report to phase barriers.

One epoch of the machine is one phase of one tile: the `__syncthreads` of the tile loop separate
the epochs.  Besides the threads there is the copy engine, in which every chunk of a staging and
every byte of a bulk load is a thread of its own that comes in at any time after its issue.  The
rings may hold anything at the start; what has been staged is recorded as the tile and the block it
came from.

Only the operations on the rings and the barriers appear; the named barriers of the writeback are
left out, so the warps may drift further apart than they do.
-/

namespace UnimonoMoe

open Epochs PhaseBarrier

/-! ## Constants -/

/-- The constants of the tile loop. -/
structure RingBuild where
  /-- `N_KBLK` -/
  nKblk : ℕ
  /-- `GATE_PASSES` -/
  gatePasses : ℕ
  /-- `D_KBLK` -/
  dKblk : ℕ
  /-- `PASSES_PER_WG` of the down projection -/
  passesPerWg : ℕ
  /-- `A_STAGES` -/
  aStages : ℕ
  /-- `UP_PIPE` -/
  upPipe : ℕ
  /-- `DN_PIPE` -/
  dnPipe : ℕ
  /-- `M_SUBS` -/
  mSubs : ℕ
  /-- `A_ITERS`, the chunks of an activation block that one thread stages -/
  aIters : ℕ
  /-- `B_SHM`, the bytes of a weight tile -/
  bShm : ℕ
  three_le_aStages : 3 ≤ aStages
  aStages_le : aStages ≤ nKblk
  upPipe_pos : 0 < upPipe
  dnPipe_pos : 0 < dnPipe
  mSubs_pos : 0 < mSubs

namespace RingBuild

variable (B : RingBuild)

/-- `WG_TILES` of the up projection: every paired pass has `2 * N_KBLK` tiles. -/
def wgTiles : ℕ := B.gatePasses / numWg * 2 * B.nKblk

/-- `WG_TOTAL` of the down projection. -/
def wgTotal : ℕ := B.passesPerWg * B.dKblk

/-- Epoch `n` is the up phase of a tile; the others are down phases. -/
def isUp (n : ℕ) : Bool := n % 2 = 1

/-- The tile of an epoch. -/
def tileOf (n : ℕ) : ℕ := (n - 1) / 2

/-- The depth of the weight rings in an epoch. -/
def depth (n : ℕ) : ℕ := if isUp n then B.upPipe else B.dnPipe

/-- The number of steps of an epoch. -/
def steps (n : ℕ) : ℕ := if isUp n then B.wgTiles else B.wgTotal

end RingBuild

/-- A thread of the block. -/
abbrev Tid : Type := Fin 256

/-- `tid / 32 / 4` -/
def Tid.wg (t : Tid) : Fin 2 := ⟨t / 128, Nat.div_lt_of_lt_mul t.isLt⟩

/-- The thread with `wg_leader` of a warpgroup. -/
def wgLeader (w : Fin 2) : Tid := ⟨128 * w, by omega⟩

/-- The chunk `it` that thread `t` stages belongs to this row. -/
def chunkRow (t : Tid) (it : ℕ) : ℕ := (it * 256 + t) / 8

/-- A load: a chunk of staging `g` by a thread, or a byte of the weight tile of a step. -/
inductive Load
  | a (n : ℕ) (t : Tid) (g it : ℕ)
  | b (n : ℕ) (w : Fin 2) (lin byte : ℕ)
deriving DecidableEq

/-- The epoch in which a load is issued. -/
def Load.epoch : Load → ℕ
  | .a n _ _ _ => n
  | .b n _ _ _ => n

/-! ## Programs -/

/-- The operations of the tile loop on rings and barriers. -/
inductive RingOp
  /-- thread 0 initializes the phase barriers -/
  | mbarrierInit
  /-- `__syncthreads()`; `place` tells the barriers of a program apart -/
  | sync (place : ℕ)
  /-- `stage_A(g % N_KBLK, g % A_STAGES)`, with `cpa_commit()` -/
  | stageA (g : ℕ)
  /-- `cpa_wait<A_STAGES-2>()` of a step -/
  | cpaWait (lin : ℕ)
  /-- `cpa_wait<0>()` -/
  | cpaDrain
  /-- the wait for the phase barrier of a step, and `parity[slot] ^= 1` -/
  | mbarrierWait (lin : ℕ)
  /-- the `wgmma` of sub-tile `sb`, with `wgmma_commit_group()` -/
  | wgmma (lin sb : ℕ)
  /-- `wgmma_wait_group<0>()` -/
  | wgmmaWait (lin sb : ℕ)
  /-- `arm_tile(lin, lin % depth)` -/
  | armTile (depth lin : ℕ)
  /-- bytes come in -/
  | land (l : Load)
deriving DecidableEq

namespace RingBuild

variable (B : RingBuild)

/-- The place where a step begins. -/
def base (lin : ℕ) : ℕ := 3 + (B.upPipe + B.dnPipe) + B.aStages + (2 * B.mSubs + 8) * lin

/-- The place of an operation in every program it occurs in. -/
def place : RingOp → ℕ
  | .mbarrierInit => 0
  | .sync k => k
  | .armTile depth lin =>
    if lin < depth then 3 + lin else B.base (lin - depth) + 4 + 2 * B.mSubs
  | .stageA g =>
    if g < B.aStages - 1 then 3 + (B.upPipe + B.dnPipe) + g
    else B.base (g - (B.aStages - 1)) + 2
  | .cpaWait lin => B.base lin
  | .mbarrierWait lin => B.base lin + 3
  | .wgmma lin sb => B.base lin + 4 + 2 * sb
  | .wgmmaWait lin sb => B.base lin + 5 + 2 * sb
  | .cpaDrain => B.base B.wgTiles
  | .land _ => 0

/-- What only thread 0 runs. -/
def ifFirst (t : Tid) (l : List RingOp) : List RingOp := if t.val = 0 then l else []

/-- What only the leader of a warpgroup runs. -/
def ifLeader (t : Tid) (l : List RingOp) : List RingOp := if t = wgLeader t.wg then l else []

/-- The first weight tiles. -/
def armFirst (depth steps : ℕ) (t : Tid) : List RingOp :=
  ifLeader t (((List.range depth).filter (· < steps)).map (.armTile depth))

/-- The products of a step. -/
def products (lin : ℕ) : List RingOp :=
  (List.range B.mSubs).flatMap fun sb => [.wgmma lin sb, .wgmmaWait lin sb]

/-- The weight tile for the slot that a step has read. -/
def rearm (depth steps : ℕ) (t : Tid) (lin : ℕ) : List RingOp :=
  ifLeader t (if lin + depth < steps then [.armTile depth (lin + depth)] else [])

/-- A step of `up_phase`.  After the last one of a paired pass come the two barriers of the
quantization. -/
def upStep (t : Tid) (lin : ℕ) : List RingOp :=
  [.cpaWait lin, .sync (B.base lin + 1), .stageA (lin + (B.aStages - 1)), .mbarrierWait lin] ++
    (B.products lin ++ (rearm B.upPipe B.wgTiles t lin ++
      if (lin + 1) % (2 * B.nKblk) = 0 then
        [.sync (B.base lin + 5 + 2 * B.mSubs), .sync (B.base lin + 6 + 2 * B.mSubs)] else []))

/-- `up_phase`. -/
def upProgram (t : Tid) : List RingOp :=
  ifFirst t [.mbarrierInit] ++ ([.sync 1, .sync 2] ++ (armFirst B.upPipe B.wgTiles t ++
    ((List.range (B.aStages - 1)).map .stageA ++ ((List.range B.wgTiles).flatMap (B.upStep t) ++
      [.cpaDrain, .sync (B.base B.wgTiles + 1)]))))

/-- A step of `down_phase`. -/
def downStep (t : Tid) (lin : ℕ) : List RingOp :=
  .mbarrierWait lin :: (B.products lin ++ rearm B.dnPipe B.wgTotal t lin)

/-- `down_phase`. -/
def downProgram (t : Tid) : List RingOp :=
  ifFirst t [.mbarrierInit] ++ ([.sync 1] ++ (armFirst B.dnPipe B.wgTotal t ++
    (List.range B.wgTotal).flatMap (B.downStep t)))

/-- The program of a thread in an epoch. -/
def program (n : ℕ) (t : Tid) : List RingOp :=
  if n = 0 then [] else if isUp n then B.upProgram t else B.downProgram t

end RingBuild

/-! ## State -/

/-- Block `kblk` of the rows of a tile; the rows past its end are zero. -/
structure ABlock where
  tile : ℕ
  kblk : ℕ
deriving DecidableEq, Repr

/-- The weight tile that a bulk load of an epoch fetches: the pass and the block. -/
structure BTile where
  epoch : ℕ
  gfp : ℕ
  kblk : ℕ
deriving DecidableEq, Repr

/-- The rings, with the source of every chunk and byte in them, and the phase barriers. -/
structure RingMem where
  aRing : ℕ → Tid → ℕ → ABlock
  bRing : Fin 2 → ℕ → ℕ → BTile
  bar : Fin 2 → ℕ → State

/-- The block of threads, and the copy engine. -/
inductive Party
  | block
  | engine
deriving DecidableEq

/-- What runs: a thread of the block, or a load in the engine. -/
inductive Worker
  | thread (t : Tid)
  | copy (l : Load)
deriving DecidableEq

/-- A configuration.  The registers of a thread are its parity bits. -/
abbrev RingConfig : Type := Config Party Worker RingOp RingMem (ℕ → ℕ)

section Machine

variable (B : RingBuild) (rows : ℕ → ℕ)

/-- `tile_gfp_ks` of `up_phase`. -/
def RingBuild.tileGfpKs (w lin : ℕ) : ℕ × ℕ :=
  let pp := lin / (2 * B.nKblk)
  let within := lin % (2 * B.nKblk)
  let isUp := within / B.nKblk
  let ks := within % B.nKblk
  let g := w + pp * numWg
  (if isUp ≠ 0 then B.gatePasses + g else g, ks)

/-- The pass and the block of a step of `down_phase`. -/
def RingBuild.downGfpDk (w lin : ℕ) : ℕ × ℕ := (w + lin / B.dKblk * numWg, lin % B.dKblk)

/-- The weight tile of a step. -/
def RingBuild.weightTile (n : ℕ) (w : Fin 2) (lin : ℕ) : BTile :=
  let gfpKs := if RingBuild.isUp n then B.tileGfpKs w lin else B.downGfpDk w lin
  ⟨n, gfpKs.1, gfpKs.2⟩

/-- The activation block of staging `g`. -/
def RingBuild.activationBlock (n g : ℕ) : ABlock := ⟨RingBuild.tileOf n, g % B.nKblk⟩

/-- The thread has executed the operation, which is in its program for this epoch. -/
def Ran (c : RingConfig) (n : ℕ) (t : Tid) (i : RingOp) : Prop :=
  i ∈ B.program n t ∧ Done c n .block (.thread t) i

/-- A load has been issued.  Chunks past the rows of a tile are stored as zeros instead. -/
def Issued (c : RingConfig) : Load → Prop
  | .a n t g it =>
    Ran B c n t (.stageA g) ∧ it < B.aIters ∧ chunkRow t it < rows (RingBuild.tileOf n)
  | .b n w lin byte => Ran B c n (wgLeader w) (.armTile (B.depth n) lin) ∧ byte < B.bShm

/-- A load has come in. -/
def Landed (c : RingConfig) (l : Load) : Prop := Done c 1 .engine (.copy l) (.land l)

instance (c : RingConfig) : DecidablePred (Landed c) := fun _ =>
  inferInstanceAs (Decidable (Done _ _ _ _ _))

/-- `cp.async.wait_group`: a staging is complete once `pending` later ones have been committed. -/
def WaitGroup (c : RingConfig) (t : Tid) (pending : ℕ) : Prop :=
  ∀ g it, Ran B c (c.epoch .block) t (.stageA (g + pending)) →
    Issued B rows c (.a (c.epoch .block) t g it) → Landed c (.a (c.epoch .block) t g it)

/-- When an operation can be executed. -/
def ringEnabled (c : RingConfig) (_ : Party) : Worker → RingOp → Prop
  | .thread _, .sync k => ∀ u, Arrived c .block (.thread u) (.sync k)
  | .thread t, .cpaWait _ => WaitGroup B rows c t (B.aStages - 2)
  | .thread t, .cpaDrain => WaitGroup B rows c t 0
  | .thread t, .mbarrierWait lin =>
    let slot := lin % B.depth (c.epoch .block)
    tryWaitParity (c.mem.bar t.wg slot) (c.reg .block (.thread t) slot) = true
  | .thread t, .wgmmaWait lin sb =>
    ∀ u : Tid, u.wg = t.wg → .wgmma lin sb ∉ c.rest .block (.thread u)
  | .copy l, _ => Issued B rows c l
  | _, _ => True

/-- What an operation does to the memory and the parity bits. -/
def ringEffect (c : RingConfig) (_ : Party) (x : Worker) (i : RingOp) : RingMem × (ℕ → ℕ) :=
  let m := c.mem
  let n := c.epoch .block
  let parity := c.reg .block x
  match x, i with
  | .thread _, .mbarrierInit =>
    ({ m with bar := fun w slot => if slot < B.depth n then fresh else m.bar w slot }, parity)
  | .thread t, .stageA g =>
    ({ m with aRing := fun slot u it =>
        if slot = g % B.aStages ∧ u = t ∧ it < B.aIters ∧ rows (RingBuild.tileOf n) ≤ chunkRow t it
        then B.activationBlock n g else m.aRing slot u it }, parity)
  | .thread t, .armTile depth lin =>
    let slot := lin % depth
    ({ m with
        bar := Function.update m.bar t.wg
          (Function.update (m.bar t.wg) slot (arriveExpectTx (m.bar t.wg slot) B.bShm)) }, parity)
  | .thread _, .mbarrierWait lin =>
    let slot := lin % B.depth n
    (m, Function.update parity slot (parity slot ^^^ 1))
  | .copy _, .land (.a n t g it) =>
    ({ m with aRing := fun slot u j =>
        if slot = g % B.aStages ∧ u = t ∧ j = it then B.activationBlock n g
        else m.aRing slot u j }, parity)
  | .copy _, .land (.b n w lin byte) =>
    let slot := lin % B.depth n
    ({ m with
        bRing := fun v s j =>
          if v = w ∧ s = slot ∧ j = byte then B.weightTile n w lin else m.bRing v s j
        bar := Function.update m.bar w
          (Function.update (m.bar w) slot (completeTx (m.bar w slot))) }, parity)
  | _, _ => (m, parity)

/-- The tile loop of a block over `tiles` tiles. -/
def ringMachine (tiles : ℕ) : Machine Party Worker RingOp RingMem (ℕ → ℕ) where
  epochs := 2 * tiles
  prog n r x :=
    match r, x with
    | .block, .thread t => B.program n t
    | .engine, .copy l => if n = 1 then [.land l] else []
    | _, _ => []
  start _ m := m
  reg₀ _ := 0
  enabled := ringEnabled B rows
  effect := ringEffect B rows

end Machine

/-! ## Loop counters -/

section LoopCounters

variable {B : RingBuild} (w : ℕ)

/-- A step of the up projection has the pass and the block of its loops. -/
lemma tileGfpKs_loop {half ks : ℕ} (pp : ℕ) (hhalf : half < 2) (hks : ks < B.nKblk) :
    B.tileGfpKs w (pp * 2 * B.nKblk + half * B.nKblk + ks) =
      (if half ≠ 0 then B.gatePasses + (w + pp * numWg) else w + pp * numWg, ks) := by
  have hwithin : half * B.nKblk + ks < 2 * B.nKblk := by
    have := Nat.mul_le_mul_right B.nKblk (Nat.le_of_lt_succ hhalf)
    omega
  have hlin : pp * 2 * B.nKblk + half * B.nKblk + ks =
      pp * (2 * B.nKblk) + (half * B.nKblk + ks) := by ring
  unfold RingBuild.tileGfpKs
  simp only [hlin, Loops.rowMajor_div hwithin, Loops.rowMajor_mod hwithin,
    Loops.rowMajor_div hks, Loops.rowMajor_mod hks]

/-- A step of the down projection has the pass and the block of its loops. -/
lemma downGfpDk_loop {dk : ℕ} (p : ℕ) (hdk : dk < B.dKblk) :
    B.downGfpDk w (p * B.dKblk + dk) = (w + p * numWg, dk) := by
  unfold RingBuild.downGfpDk
  rw [Loops.rowMajor_div hdk, Loops.rowMajor_mod hdk]

end LoopCounters

/-! ## Which thread runs what -/

section Membership

variable {B : RingBuild} {n lin : ℕ} {t : Tid} {i : RingOp}

/-- The `__syncthreads` of the up projection. -/
def RingBuild.UpSync (B : RingBuild) (k : ℕ) : Prop :=
  (k = 1 ∨ k = 2) ∨ (∃ lin < B.wgTiles, k = B.base lin + 1 ∨
    (lin + 1) % (2 * B.nKblk) = 0 ∧
      (k = B.base lin + 5 + 2 * B.mSubs ∨ k = B.base lin + 6 + 2 * B.mSubs)) ∨
        k = B.base B.wgTiles + 1

/-- What a thread runs in an epoch. -/
def RingBuild.Runs (B : RingBuild) (n : ℕ) (t : Tid) : RingOp → Prop
  | .mbarrierInit => t.val = 0
  | .sync k => if RingBuild.isUp n then B.UpSync k else k = 1
  | .stageA g => RingBuild.isUp n ∧ g < B.wgTiles + (B.aStages - 1)
  | .cpaWait lin => RingBuild.isUp n ∧ lin < B.wgTiles
  | .cpaDrain => RingBuild.isUp n
  | .mbarrierWait lin => lin < B.steps n
  | .wgmma lin sb | .wgmmaWait lin sb => lin < B.steps n ∧ sb < B.mSubs
  | .armTile depth lin => t = wgLeader t.wg ∧ depth = B.depth n ∧ lin < B.steps n
  | .land _ => False

/-- What only thread 0 does. -/
lemma mem_ifFirst {l : List RingOp} : i ∈ RingBuild.ifFirst t l ↔ t.val = 0 ∧ i ∈ l := by
  unfold RingBuild.ifFirst
  split_ifs with h <;> simp [h]

/-- What only the leader of a warp group does. -/
lemma mem_ifLeader {l : List RingOp} :
    i ∈ RingBuild.ifLeader t l ↔ t = wgLeader t.wg ∧ i ∈ l := by
  unfold RingBuild.ifLeader
  split_ifs with h
  · simp only [← h, true_and]
  · simp [h]

/-- The products of a step, each with its wait. -/
lemma mem_products : i ∈ B.products lin ↔
    ∃ sb < B.mSubs, i = .wgmma lin sb ∨ i = .wgmmaWait lin sb := by
  simp [RingBuild.products]

/-- The leader arms the first steps, as many as the ring is deep. -/
lemma mem_armFirst {depth steps : ℕ} : i ∈ RingBuild.armFirst depth steps t ↔
    t = wgLeader t.wg ∧ ∃ lin, (lin < depth ∧ lin < steps) ∧ .armTile depth lin = i := by
  simp only [RingBuild.armFirst, mem_ifLeader, List.mem_map, List.mem_filter, List.mem_range,
    decide_eq_true_eq]

/-- Behind a step the leader arms the one that reuses its slot. -/
lemma mem_rearm {depth steps : ℕ} : i ∈ RingBuild.rearm depth steps t lin ↔
    t = wgLeader t.wg ∧ lin + depth < steps ∧ .armTile depth (lin + depth) = i := by
  unfold RingBuild.rearm
  rw [mem_ifLeader]
  split_ifs with h <;> simp [h, eq_comm]

/-- The weight tiles of a phase are armed before the loop or in it. -/
lemma exists_arm_iff {p : Prop} {depth depth' steps lin : ℕ} (hdepth : 0 < depth) :
    (p ∧ (lin < depth ∧ lin < steps) ∧ depth = depth' ∨
      ∃ k < steps, p ∧ k + depth < steps ∧ depth = depth' ∧ k + depth = lin) ↔
        p ∧ depth' = depth ∧ lin < steps := by
  constructor
  · rintro (⟨hp, ⟨-, hlin⟩, rfl⟩ | ⟨k, -, hp, hk, rfl, rfl⟩)
    · exact ⟨hp, rfl, hlin⟩
    · exact ⟨hp, rfl, hk⟩
  · rintro ⟨hp, rfl, hlin⟩
    by_cases hfirst : lin < depth'
    · exact Or.inl ⟨hp, ⟨hfirst, hlin⟩, rfl⟩
    · exact Or.inr ⟨lin - depth', by omega, hp, by omega, rfl, by omega⟩

/-- The stagings are issued before the loop or in it. -/
lemma exists_staging_iff {ahead steps g : ℕ} :
    (g < ahead ∨ ∃ lin < steps, g = lin + ahead) ↔ g < steps + ahead := by
  constructor
  · rintro (hg | ⟨lin, hlin, rfl⟩) <;> omega
  · intro hg
    by_cases hfirst : g < ahead
    · exact Or.inl hfirst
    · exact Or.inr ⟨g - ahead, by omega, by omega⟩

/-- The program of an up phase has the instructions of `Runs`. -/
lemma mem_upProgram {n : ℕ} (hn : RingBuild.isUp n = true) : i ∈ B.upProgram t ↔ B.Runs n t i := by
  simp only [RingBuild.upProgram, RingBuild.upStep, List.mem_append, mem_ifFirst, mem_products,
    mem_armFirst, mem_rearm, List.mem_flatMap, List.mem_range, List.mem_map, List.mem_cons,
    List.not_mem_nil, or_false]
  cases i with
  | stageA g => simpa [RingBuild.Runs, hn] using exists_staging_iff
  | armTile depth lin =>
    simpa [RingBuild.Runs, RingBuild.depth, RingBuild.steps, hn] using exists_arm_iff B.upPipe_pos
  | _ => simp [RingBuild.Runs, RingBuild.steps, RingBuild.UpSync, hn]

/-- So has that of a down phase. -/
lemma mem_downProgram {n : ℕ} (hn : RingBuild.isUp n = false) :
    i ∈ B.downProgram t ↔ B.Runs n t i := by
  simp only [RingBuild.downProgram, RingBuild.downStep, List.mem_append, mem_ifFirst, mem_products,
    mem_armFirst, mem_rearm, List.mem_flatMap, List.mem_range, List.mem_cons, List.not_mem_nil,
    or_false]
  cases i with
  | armTile depth lin =>
    simpa [RingBuild.Runs, RingBuild.depth, RingBuild.steps, hn] using exists_arm_iff B.dnPipe_pos
  | _ => simp [RingBuild.Runs, RingBuild.steps, hn]

/-- `Runs` describes the programs. -/
lemma mem_program : i ∈ B.program n t ↔ 0 < n ∧ B.Runs n t i := by
  unfold RingBuild.program
  by_cases hzero : n = 0
  · simp [hzero]
  rw [if_neg hzero]
  split_ifs with hn
  · simp [mem_upProgram hn, Nat.pos_of_ne_zero hzero]
  · simp [mem_downProgram (Bool.eq_false_iff.mpr hn), Nat.pos_of_ne_zero hzero]

end Membership

/-! ## The order of a program -/

section Order

variable {B : RingBuild} {t : Tid} {lin : ℕ}

/-- The places of a step lie before those of the later steps. -/
lemma base_add_le {lin' : ℕ} (h : lin < lin') :
    B.base lin + (2 * B.mSubs + 8) ≤ B.base lin' := by
  have hmul := Nat.mul_le_mul_left (2 * B.mSubs + 8) (Nat.succ_le_of_lt h)
  rw [Nat.mul_succ] at hmul
  unfold RingBuild.base
  omega

/-- The loop lies behind the barriers and the first loads. -/
lemma le_base (lin : ℕ) : 3 + (B.upPipe + B.dnPipe) + B.aStages ≤ B.base lin :=
  Nat.le_add_right _ _

/-- The initialization comes first. -/
lemma piece_ifFirst : Piece B.place 0 1 (RingBuild.ifFirst t [.mbarrierInit]) := by
  unfold RingBuild.ifFirst
  exact Piece.ite (Piece.singleton le_rfl Nat.one_pos)

/-- The first arming comes before all steps. -/
lemma piece_armFirst {depth : ℕ} (steps : ℕ) (hdepth : depth ≤ B.upPipe + B.dnPipe) :
    Piece B.place 3 (3 + (B.upPipe + B.dnPipe)) (RingBuild.armFirst depth steps t) := by
  unfold RingBuild.armFirst RingBuild.ifLeader
  refine Piece.ite ⟨?_, ?_, ?_, ?_⟩
  · refine List.pairwise_map.mpr (List.Pairwise.imp_of_mem ?_
      (List.pairwise_lt_range.sublist List.filter_sublist))
    intro a b ha hb hlt
    have ha : a < depth := List.mem_range.mp (List.mem_filter.mp ha).1
    have hb : b < depth := List.mem_range.mp (List.mem_filter.mp hb).1
    simp only [RingBuild.place, if_pos ha, if_pos hb]
    omega
  · exact (List.nodup_range.filter _).map fun a b heq => by injection heq
  · simp only [List.mem_map, List.mem_filter, List.mem_range]
    rintro _ ⟨a, ⟨ha, -⟩, rfl⟩
    simp only [RingBuild.place, if_pos ha]
    omega
  · simp only [List.mem_map, List.mem_filter, List.mem_range]
    rintro _ ⟨a, ⟨ha, -⟩, rfl⟩
    simp only [RingBuild.place, if_pos ha]
    omega

/-- So do the first copies of activations. -/
lemma piece_stageFirst : Piece B.place (3 + (B.upPipe + B.dnPipe)) (B.base 0)
    ((List.range (B.aStages - 1)).map .stageA) := by
  have hplace : ∀ g < B.aStages - 1, B.place (.stageA g) = 3 + (B.upPipe + B.dnPipe) + g :=
    fun g hg => if_pos hg
  refine ⟨?_, ?_, ?_, ?_⟩
  · refine List.pairwise_map.mpr (List.Pairwise.imp_of_mem ?_ List.pairwise_lt_range)
    intro a b ha hb hlt
    rw [hplace a (List.mem_range.mp ha), hplace b (List.mem_range.mp hb)]
    omega
  · exact List.nodup_range.map fun a b heq => by injection heq
  · simp only [List.mem_map, List.mem_range]
    rintro _ ⟨a, ha, rfl⟩
    rw [hplace a ha]
    omega
  · simp only [List.mem_map, List.mem_range]
    rintro _ ⟨a, ha, rfl⟩
    rw [hplace a ha]
    have := le_base (B := B) 0
    omega

/-- The products of a step come in order. -/
lemma piece_products :
    Piece B.place (B.base lin + 4) (B.base lin + 4 + 2 * B.mSubs) (B.products lin) := by
  unfold RingBuild.products
  refine Piece.flatMap_range fun sb _ => Piece.cons (B.base lin + 4 + 2 * sb + 1) ?_ ?_
    (Piece.singleton ?_ ?_) (by omega) <;> simp only [RingBuild.place] <;> omega

/-- Behind them comes the next arming. -/
lemma piece_rearm (depth steps : ℕ) : Piece B.place (B.base lin + 4 + 2 * B.mSubs)
    (B.base lin + 5 + 2 * B.mSubs) (RingBuild.rearm depth steps t lin) := by
  have hplace : B.place (.armTile depth (lin + depth)) = B.base lin + 4 + 2 * B.mSubs := by
    simp [RingBuild.place]
  unfold RingBuild.rearm RingBuild.ifLeader
  exact Piece.ite (Piece.ite (Piece.singleton hplace.ge (by omega)))

/-- A step of an up phase goes through its places in order. -/
lemma piece_upStep :
    Piece B.place (B.base lin) (B.base lin + (2 * B.mSubs + 8)) (B.upStep t lin) := by
  have hlast : Piece B.place (B.base lin + 5 + 2 * B.mSubs) (B.base lin + (2 * B.mSubs + 8))
      (if (lin + 1) % (2 * B.nKblk) = 0 then
        [.sync (B.base lin + 5 + 2 * B.mSubs), .sync (B.base lin + 6 + 2 * B.mSubs)] else []) :=
    Piece.ite (Piece.cons (B.base lin + 6 + 2 * B.mSubs) le_rfl
      (by simp only [RingBuild.place]; omega)
      (Piece.singleton le_rfl (by simp only [RingBuild.place]; omega)) (by omega))
  have hstage : B.place (.stageA (lin + (B.aStages - 1))) = B.base lin + 2 := by
    simp [RingBuild.place]
  have hbody := piece_products.append _ ((piece_rearm B.upPipe B.wgTiles (t := t)).append _
    hlast (by omega) (by omega)) (by omega) (by omega)
  refine Piece.cons (B.base lin + 1) le_rfl (Nat.lt_succ_self _) ?_ (by omega)
  refine Piece.cons (B.base lin + 2) le_rfl (by simp [RingBuild.place]) ?_ (by omega)
  refine Piece.cons (B.base lin + 3) hstage.ge (by omega) ?_ (by omega)
  exact Piece.cons (B.base lin + 4) le_rfl (by simp [RingBuild.place]) hbody (by omega)

/-- So does a step of a down phase. -/
lemma piece_downStep :
    Piece B.place (B.base lin) (B.base lin + (2 * B.mSubs + 8)) (B.downStep t lin) := by
  refine Piece.cons (B.base lin + 4) (by simp [RingBuild.place]) (by simp [RingBuild.place]) ?_
    (by omega)
  exact piece_products.append _ ((piece_rearm _ _).mono le_rfl (by omega)) (by omega) (by omega)

/-- The steps of a phase. -/
lemma piece_steps (steps : ℕ) {body : ℕ → List RingOp}
    (h : ∀ lin, Piece B.place (B.base lin) (B.base lin + (2 * B.mSubs + 8)) (body lin)) :
    Piece B.place (B.base 0) (B.base steps) ((List.range steps).flatMap body) := by
  have hbase : ∀ lin, B.base lin = B.base 0 + (2 * B.mSubs + 8) * lin := by
    simp [RingBuild.base]
  rw [hbase steps]
  refine Piece.flatMap_range fun lin _ => ?_
  rw [← hbase, Nat.mul_succ, ← Nat.add_assoc, ← hbase]
  exact h lin

/-- An up phase goes through its places in order. -/
lemma piece_upProgram : Piece B.place 0 (B.base B.wgTiles + 2) (B.upProgram t) := by
  have hend : Piece B.place (B.base B.wgTiles) (B.base B.wgTiles + 2)
      [.cpaDrain, .sync (B.base B.wgTiles + 1)] :=
    Piece.cons (B.base B.wgTiles + 1) le_rfl (by simp [RingBuild.place])
      (Piece.singleton le_rfl (by simp [RingBuild.place])) (by omega)
  have hbase := le_base (B := B) B.wgTiles
  have hzero := le_base (B := B) 0
  have hle : B.base 0 ≤ B.base B.wgTiles := by simp [RingBuild.base]
  have hloop := (piece_steps B.wgTiles fun _ => piece_upStep (B := B) (t := t)).append _
    hend hle (by omega)
  have hfirst := (piece_armFirst (B := B) (t := t) B.wgTiles
    (Nat.le_add_right B.upPipe B.dnPipe)).append _ (piece_stageFirst.append _ hloop (by omega)
      (by omega)) (by omega) (by omega)
  refine piece_ifFirst.append 1 ?_ (by omega) (by omega)
  refine Piece.cons 2 le_rfl (by simp [RingBuild.place]) ?_ (by omega)
  exact Piece.cons 3 le_rfl (by simp [RingBuild.place]) hfirst (by omega)

/-- So does a down phase. -/
lemma piece_downProgram : Piece B.place 0 (B.base B.wgTotal) (B.downProgram t) := by
  have hbase := le_base (B := B) B.wgTotal
  have hzero := le_base (B := B) 0
  have hle : B.base 0 ≤ B.base B.wgTotal := by simp [RingBuild.base]
  have hloop := piece_steps B.wgTotal fun _ => piece_downStep (B := B) (t := t)
  have hfirst := (piece_armFirst (B := B) (t := t) B.wgTotal
    (Nat.le_add_left B.dnPipe B.upPipe)).append _ (hloop.mono (by omega) le_rfl) (by omega)
      (by omega)
  refine piece_ifFirst.append 1 ?_ (by omega) (by omega)
  exact Piece.cons 3 (by simp [RingBuild.place]) (by simp [RingBuild.place]) hfirst (by omega)

/-- The programs of the tile loop are ordered by `place`. -/
theorem ringMachine_staged (rows : ℕ → ℕ) (tiles : ℕ) :
    (ringMachine B rows tiles).Staged B.place := by
  have hprogram : ∀ n t, (B.program n t).Pairwise (fun i j => B.place i ≤ B.place j) ∧
      (B.program n t).Nodup := by
    intro n t
    unfold RingBuild.program
    split_ifs
    · exact ⟨List.Pairwise.nil, List.nodup_nil⟩
    · exact ⟨piece_upProgram.sorted, piece_upProgram.nodup⟩
    · exact ⟨piece_downProgram.sorted, piece_downProgram.nodup⟩
  refine ⟨fun r x => ?_, fun n r x => ?_, fun n r x => ?_⟩
  · cases r <;> cases x <;> rfl
  · cases r <;> cases x <;> simp only [ringMachine]
    · exact (hprogram n _).1
    · exact List.Pairwise.nil
    · exact List.Pairwise.nil
    · split_ifs
      · exact List.pairwise_singleton _ _
      · exact List.Pairwise.nil
  · cases r <;> cases x <;> simp only [ringMachine]
    · exact (hprogram n _).2
    · exact List.nodup_nil
    · exact List.nodup_nil
    · split_ifs
      · exact List.nodup_singleton _
      · exact List.nodup_nil

end Order

end UnimonoMoe
