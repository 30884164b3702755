import UnimonoMoe.Kernel.ExpertTile

/-!
# The output of the kernel

The phases of the kernel put together: quantization of the activations, sorting, the tile loops of
all blocks with their writeback, and the reduction.  What a store of the writeback puts in
`output_accum` is now what the threads of a warpgroup left in their staging buffer, register by
register (`cellReg`).

Row by row this is `expertRow`, a function of the expert, the token and the column, so the output of
a token does not depend on the other tokens of the launch, on the order in which they are sorted,
or on anything else that the interleaving decides (`kernel_output`).
-/

namespace UnimonoMoe

open Epochs Loops Interleaving PrefixSum Threads

variable {β : Type*} {B : Build} {a : LaunchArgs} {ids : ℕ → ℤ} {W P S O : Type*}

/-! ## The tiles of a block -/

section BlockTiles

variable (B) (sched : Schedule) (sorted : ℕ → ℕ) (b k : ℕ)

/-- The number of tiles that a block works on. -/
def blockTiles : ℕ := (strided b sched.totalTiles B.gridSize).length

/-- Tile `k` of a block. -/
def blockTile : ℕ := b + k * B.gridSize

/-- The operands of the kernel, with the tiles of a block. -/
def blockData (X : ExpertData β) : ExpertData β :=
  { X with
    expert := fun k => sched.tileExpert (blockTile B b k)
    rows := fun k => tileRows B sched (blockTile B b k)
    fi := fun k m => rowFi sched sorted (blockTile B b k) m }

variable {B sched sorted b k}

/-- A block works on tiles of the schedule. -/
lemma blockTile_lt (hk : k < blockTiles B sched b) : blockTile B b k < sched.totalTiles := by
  unfold blockTiles strided at hk
  rw [List.length_range', Nat.lt_div_iff_mul_lt B.gridSize_pos] at hk
  unfold blockTile
  omega

/-- Every tile is one of its block. -/
lemma lt_blockTiles {tile : ℕ} (htile : tile < sched.totalTiles) :
    tile / B.gridSize < blockTiles B sched (tile % B.gridSize) := by
  have hdiv := Nat.div_add_mod' tile B.gridSize
  have hpos := B.gridSize_pos
  have hless : tile / B.gridSize * B.gridSize < sched.totalTiles - tile % B.gridSize := by omega
  unfold blockTiles strided
  rw [List.length_range', Nat.lt_div_iff_mul_lt hpos]
  omega

/-- Every tile is one of a block. -/
lemma blockTile_div (tile : ℕ) : blockTile B (tile % B.gridSize) (tile / B.gridSize) = tile :=
  Nat.mod_add_div' tile B.gridSize

/-- A tile has at most 128 rows. -/
lemma tileRows_le (tile : ℕ) : tileRows B sched tile ≤ 128 :=
  (Nat.min_le_left _ _).trans B.blockM_eq.le

/-- The expert of a tile is resident. -/
lemma tileExpert_lt (hids : RoutedIds B a.numTokens ids)
    (hsched : Scheduled B (slotCount B a.numTokens ids) sched)
    (hsorted : Sorted B a.numTokens ids sorted) {tile : ℕ} (htile : tile < sched.totalTiles) :
    sched.tileExpert tile < B.eLocal := by
  obtain ⟨e, i, he, hi, hexpert, -, hrows, -⟩ := hsched.tile_decode htile
  have hpos : 0 < tileRows B sched tile := by
    have := blockM_pos (B := B)
    omega
  obtain ⟨he, hregion⟩ := hsched.row_inRegion htile hpos
  obtain ⟨hown, hsame⟩ := hsorted.owned _ _ he hregion
  exact hsame ▸ hown.expertOf_lt hids

end BlockTiles

/-- The shared memory of a block, and what is in it when phase 2 begins. -/
structure BlockMem (B : Build) (β : Type*) where
  shm : ℕ
  noise : RingConfig → Worker → RingOp → (ℕ → β) → ℕ → β
  bar : Fin 2 → ℕ → PhaseBarrier.State
  mem₀ : ℕ → β
  interScales₀ : ℕ → Float32
  shm_dvd : 1024 ∣ shm
  shm_le : shm + B.shmTotal ≤ 2 ^ 18

/-- The tile loop of a block. -/
def blockLoop {sched : Schedule} {sorted : ℕ → ℕ} (hB : B.Tiled) (X : ExpertData β)
    (hids : RoutedIds B a.numTokens ids) (hsched : Scheduled B (slotCount B a.numTokens ids) sched)
    (hsorted : Sorted B a.numTokens ids sorted) (M : BlockMem B β) (b : ℕ) : TileLoop B β where
  toExpertData := blockData B sched sorted b X
  tiled := hB
  tiles := blockTiles B sched b
  shm := M.shm
  noise := M.noise
  bar := M.bar
  mem₀ := M.mem₀
  interScales₀ := M.interScales₀
  shm_dvd := M.shm_dvd
  shm_le := M.shm_le
  rows_le k := tileRows_le (blockTile B b k)
  expert_lt _ hk := tileExpert_lt hids hsched hsorted (blockTile_lt hk)

/-! ## The writeback, register by register -/

section Writeback

variable {sched : Schedule} {sorted : ℕ → ℕ} {hB : B.Tiled} {X : ExpertData β}
  {hids : RoutedIds B a.numTokens ids} {hsched : Scheduled B (slotCount B a.numTokens ids) sched}
  {hsorted : Sorted B a.numTokens ids sorted} {M : Fin B.gridSize → BlockMem B β}
  {A : TileArith β} {op : CellOp}

/-- The block that makes a store. -/
def CellOp.block (B : Build) (op : CellOp) : Fin B.gridSize :=
  ⟨op.tile % B.gridSize, Nat.mod_lt _ B.gridSize_pos⟩

/-- A lane of a warp is a thread of the block. -/
lemma stageTid_lt (w warp lane : ℕ) : (w * 128 + warp * 32 + lane) % 256 < 256 :=
  Nat.mod_lt _ (by decide)

/-- The thread `lane` of warp `warp` of a warpgroup. -/
def stageTid (w warp lane : ℕ) : Tid :=
  ⟨(w * 128 + warp * 32 + lane) % 256, stageTid_lt w warp lane⟩

/-- The accumulator that a thread of the warpgroup leaves in the staging buffer of a store. -/
def stagedReg (loops : ∀ b, TileLoopRun (blockLoop hB X hids hsched hsorted (M b) b) A)
    (op : CellOp) (p : ℕ × ℕ × ℕ) : Float32 :=
  (loops (op.block B)).downReg (op.tile / B.gridSize)
    (stageTid (op.gfp % numWg) p.1 p.2.1) (op.gfp / numWg) (op.m / 64) p.2.2

/-- The value a store writes: the staged accumulator of its row and column, scaled by the routing
weight of the row. -/
def cellReg (loops : ∀ b, TileLoopRun (blockLoop hB X hids hsched hsorted (M b) b) A)
    (partialOf : Float32 → W → P) (stage₀ : ℕ → Float32) (weights : ℕ → W) (op : CellOp) : P :=
  partialOf (storeAll stageAddr (stagedReg loops op) stage₀ stageOps (op.m % 64 * 64 + op.col))
    (weights (rowFi sched sorted op.tile op.m))

/-- The accumulator for a row and a column of the staging buffer. -/
lemma exists_stageOp {m n : ℕ} (hm : m < 64) (hn : n < 64) :
    ∃ p ∈ stageOps, stageRow p.1 p.2.1 p.2.2 = m ∧ stageCol p.2.1 p.2.2 = n := by
  refine ⟨(m / 16, m % 8 * 4 + n % 8 / 2, n / 8 * 4 + m % 16 / 8 * 2 + n % 2),
    mem_stageOps.mpr ⟨?_, ?_, ?_⟩, ?_, ?_⟩ <;> simp only [stageRow, stageCol] <;> omega

/-- The warpgroup and the fragments of a thread. -/
lemma stageTid_frag {w warp lane : ℕ} (hw : w < numWg) (hwarp : warp < 4) (hlane : lane < 32)
    (dr : ℕ) : ((stageTid w warp lane).wg : ℕ) = w ∧
      fragRow (stageTid w warp lane) dr = stageRow warp lane dr ∧
      fragCol (stageTid w warp lane) dr = stageCol lane dr := by
  unfold numWg at hw
  have hval : (stageTid w warp lane : ℕ) = w * 128 + warp * 32 + lane := Nat.mod_eq_of_lt (by omega)
  have hwarp' : (w * 128 + warp * 32 + lane) / 32 % 4 = warp := by omega
  have hlane' : (w * 128 + warp * 32 + lane) % 32 = lane := by omega
  refine ⟨?_, ?_, ?_⟩
  · simp only [Tid.wg, hval]
    omega
  · simp only [fragRow, hval, hwarp', hlane']
  · simp only [fragCol, hval, hlane']

/-- A store writes what the expert makes of the token, scaled by the routing weight. -/
lemma cellReg_eq (loops : ∀ b, TileLoopRun (blockLoop hB X hids hsched hsorted (M b) b) A)
    (partialOf : Float32 → W → P) (stage₀ : ℕ → Float32) (weights : ℕ → W)
    (hop : ValidCell B sched op) : cellReg loops partialOf stage₀ weights op =
      partialOf (X.expertRow A B (sched.tileExpert op.tile)
        (rowFi sched sorted op.tile op.m / B.topK) (op.gfp * nFeat + op.col))
        (weights (rowFi sched sorted op.tile op.m)) := by
  obtain ⟨htile, hgfp, hm, hcol⟩ := hop
  have hrows : tileRows B sched op.tile ≤ 128 := tileRows_le op.tile
  obtain ⟨p, hp, hrow, hcolumn⟩ := exists_stageOp (Nat.mod_lt op.m (by decide : 0 < 64)) hcol
  obtain ⟨hwarp, hlane, hdr⟩ := mem_stageOps.mp hp
  obtain ⟨hwg, hfragRow, hfragCol⟩ :=
    stageTid_frag (Nat.mod_lt op.gfp (by decide : 0 < numWg)) hwarp hlane p.2.2
  have haddr : op.m % 64 * 64 + op.col = stageAddr p := by rw [stageAddr, hrow, hcolumn]
  -- the register of row `m` in the run of the block of the tile
  have hin : rowOf (stageTid (op.gfp % numWg) p.1 p.2.1) (op.m / 64) (p.2.2 / 2 % 2) = op.m := by
    rw [rowOf_eq, hfragRow, hrow]
    exact Nat.div_add_mod' op.m 64
  have hsame := blockTile_div (B := B) op.tile
  have hdown := (loops (op.block B)).downReg_eq (lt_blockTiles htile)
    (t := stageTid (op.gfp % numWg) p.1 p.2.1) (p := op.gfp / numWg)
    (Nat.div_lt_of_lt_mul (Nat.mul_comm _ _ ▸ hgfp)) (show op.m / 64 < 2 by omega) hdr
    (hin.trans_lt (hm.trans_eq (congrArg (tileRows B sched) hsame.symm)))
  have hreg : stagedReg loops op p = X.expertRow A B (sched.tileExpert op.tile)
      (rowFi sched sorted op.tile op.m / B.topK) (op.gfp * nFeat + op.col) := by
    rw [hin, hwg, hfragCol, hcolumn, Nat.mod_add_div'] at hdown
    refine hdown.trans ?_
    have hexpert : (blockLoop hB X hids hsched hsorted (M (op.block B)) (op.block B)).expert
        (op.tile / B.gridSize) = sched.tileExpert op.tile := congrArg sched.tileExpert hsame
    have hfi : (blockLoop hB X hids hsched hsorted (M (op.block B)) (op.block B)).fi
        (op.tile / B.gridSize) op.m = rowFi sched sorted op.tile op.m :=
      congrArg (fun tile => rowFi sched sorted tile op.m) hsame
    rw [hexpert, hfi]
    rfl
  unfold cellReg
  rw [haddr, storeAll_of_mem nodup_stageOps stageAddr_inj hp, hreg]

end Writeback

/-! ## The quantized activations -/

section Quantized

variable (B) (A : TileArith UInt8) (X : ExpertData UInt8)

/-- The operands of the tile loops, with the activations as phase 0 has left them. -/
def quantData (q : Threads.Config B.Warp QuantCell UInt32 Empty (ℕ × ℕ) Unit) : ExpertData UInt8 :=
  { X with
    actFp8 := fun i => (q.store (.fp8 i)).toUInt8
    actScales := fun i => Float32.ofBits (q.store (.scale i)) }

/-- A warp has a lane. -/
lemma zero_lt_lanes : 0 < 32 := by decide

/-- The operands with the rows `m` of the input, quantized block by block. -/
def quantizedData (m : QuantCell → UInt32) : ExpertData UInt8 :=
  { X with
    actFp8 := fun i => A.e4m3 (bfloat162float (m (.act i)) *
      (448 / blockLm (loaded B (i / B.kDim, i % B.kDim / 128) m) ⟨0, zero_lt_lanes⟩))
    actScales := fun i => Float32.ofBits
      (blockLm (loaded B (i / B.nKblk, i % B.nKblk) m) ⟨0, zero_lt_lanes⟩ / 448).toBits }

variable {B A X}

/-- The product of rows that agree. -/
lemma TileArith.blockDot_congr {A : TileArith β} {a a' b b' : ℕ → β} (ha : ∀ x < 128, a x = a' x)
    (hb : ∀ x < 128, b x = b' x) : A.blockDot a b = A.blockDot a' b' := by
  refine List.foldl_ext _ _ _ fun d j hj => ?_
  have hj := List.mem_range.mp hj
  congr 1
  · exact funext fun k => ha _ (by omega)
  · exact funext fun k => hb _ (by omega)

/-- Two tokens have the same quantized row. -/
structure SameRow (B : Build) (X Y : ExpertData β) (tok tok' : ℕ) : Prop where
  act : ∀ x < B.nKblk * 128, X.actFp8 (tok * B.kDim + x) = Y.actFp8 (tok' * B.kDim + x)
  scale : ∀ ks < B.nKblk, X.actScales (tok * B.nKblk + ks) = Y.actScales (tok' * B.nKblk + ks)

/-- Two experts have the same weights. -/
structure SameExpert (B : Build) (X Y : ExpertData β) (e e' : ℕ) : Prop where
  up : ∀ feat < B.nUp, ∀ x < B.kDim,
    X.upWFp8 ((e * B.nUp + feat) * B.kDim + x) = Y.upWFp8 ((e' * B.nUp + feat) * B.kDim + x)
  upScale : ∀ i < B.nUp / 128, ∀ ks < B.nKblk,
    X.upWScales (e * (B.nUp / 128) * B.nKblk + i * B.nKblk + ks) =
      Y.upWScales (e' * (B.nUp / 128) * B.nKblk + i * B.nKblk + ks)
  down : ∀ h < B.hDim, ∀ x < B.nHalf,
    X.downWFp8 ((e * B.hDim + h) * B.nHalf + x) = Y.downWFp8 ((e' * B.hDim + h) * B.nHalf + x)
  downScale : ∀ i < B.hDim / 128, ∀ dk < B.dKblk,
    X.downWScales (e * (B.hDim / 128) * B.dKblk + i * B.dKblk + dk) =
      Y.downWScales (e' * (B.hDim / 128) * B.dKblk + i * B.dKblk + dk)

/-- Quantizing the activations leaves the experts the same. -/
lemma SameExpert.quantized {A : TileArith UInt8} {X Y : ExpertData UInt8}
    {m m' : QuantCell → UInt32} {e e' : ℕ} (h : SameExpert B X Y e e') :
    SameExpert B (quantizedData B A X m) (quantizedData B A Y m') e e' :=
  ⟨h.up, h.upScale, h.down, h.downScale⟩

/-- An expert is the same as itself. -/
lemma SameExpert.refl (X : ExpertData β) (e : ℕ) : SameExpert B X X e e :=
  ⟨fun _ _ _ _ => rfl, fun _ _ _ _ => rfl, fun _ _ _ _ => rfl, fun _ _ _ _ => rfl⟩

/-- What an expert makes of a token depends on the row of the token and on its own weights only. -/
lemma ExpertData.expertRow_congr {A : TileArith β} {X Y : ExpertData β} {e e' tok tok' h : ℕ}
    (hB : B.Tiled) (hrow : SameRow B X Y tok tok') (hexpert : SameExpert B X Y e e')
    (hh : h < B.hDim) : X.expertRow A B e tok h = Y.expertRow A B e' tok' h := by
  have hkDim : B.nKblk * 128 = B.kDim := Nat.div_mul_cancel hB.kDim_dvd
  have hnHalf : B.dKblk * 128 = B.nHalf := Nat.div_mul_cancel hB.nHalf_dvd
  have hnUp : B.nUp = 2 * B.nHalf := rfl
  have hfeature : ∀ feat < B.nUp, X.upFeature A B e tok feat = Y.upFeature A B e' tok' feat := by
    intro feat hfeat
    refine List.foldl_ext _ _ _ fun acc ks hks => ?_
    have hks := List.mem_range.mp hks
    rw [hexpert.upScale _ (by omega) _ hks, hrow.scale ks hks]
    congr 1
    exact TileArith.blockDot_congr (fun x hx => hrow.act _ (rowMajor_lt hks hx))
      fun x hx => hexpert.up feat hfeat _ ((rowMajor_lt hks hx).trans_eq hkDim)
  have hactivated : ∀ col < B.nHalf, X.activated A B e tok col = Y.activated A B e' tok' col := by
    intro col hcol
    unfold ExpertData.activated
    rw [hfeature col (by omega), hfeature (B.nHalf + col) (by omega)]
  have hmax : ∀ dk < B.dKblk, X.activatedMax A B e tok dk = Y.activatedMax A B e' tok' dk := by
    intro dk hdk
    refine List.foldl_ext _ _ _ fun mx j hj => ?_
    rw [hactivated _ ((rowMajor_lt hdk (List.mem_range.mp hj)).trans_eq hnHalf)]
  have hbyte : ∀ col < B.nHalf,
      X.activatedByte A B e tok col = Y.activatedByte A B e' tok' col := by
    intro col hcol
    unfold ExpertData.activatedByte
    rw [hactivated col hcol, hmax (col / 128) (by omega)]
  have hblock : h / 128 < B.hDim / 128 := by
    obtain ⟨k, hk⟩ := B.hDim_dvd
    omega
  refine List.foldl_ext _ _ _ fun acc dk hdk => ?_
  have hdk := List.mem_range.mp hdk
  rw [hexpert.downScale _ hblock _ hdk, hmax dk hdk]
  congr 1
  exact TileArith.blockDot_congr (fun x hx => hbyte _ ((rowMajor_lt hdk hx).trans_eq hnHalf))
    fun x hx => hexpert.down h hh _ ((rowMajor_lt hdk hx).trans_eq hnHalf)

variable {numTokens tok : ℕ} {m : QuantCell → UInt32}
  {q : Threads.Config B.Warp QuantCell UInt32 Empty (ℕ × ℕ) Unit}

/-- The cells of a pair hold what the visit of the pair leaves. -/
lemma store_of_quantDone {e4m3 : Float32 → UInt8} {ksb : ℕ} {k : QuantCell}
    (hq : Relation.ReflTransGen Step (quantStart B e4m3 numTokens m) q) (hdone : QuantDone q)
    (htok : tok < numTokens) (hksb : ksb < B.nKblk) (hk : k ∈ B.cellsOf (tok, ksb)) :
    q.store k = (exec (visitPair B e4m3 (tok, ksb)) m).store k := by
  have hlt : tok * B.nKblk + ksb < numTokens * B.nKblk := rowMajor_lt htok hksb
  have hpair : B.pairOf (tok * B.nKblk + ksb) = (tok, ksb) :=
    Prod.ext (rowMajor_div hksb) (rowMajor_mod hksb)
  rw [store_of_done hq hdone, ← hpair]
  exact store_plainLoop List.nodup_range (fun _ => List.mem_range.mp) (List.mem_range.mpr hlt)
    (hpair.symm ▸ hk)

/-- Phase 0 leaves the quantized row of a token. -/
lemma quantData_actFp8 (hB : B.Tiled)
    (hq : Relation.ReflTransGen Step (quantStart B A.e4m3 numTokens m) q) (hdone : QuantDone q)
    (htok : tok < numTokens) {x : ℕ} (hx : x < B.nKblk * 128) :
    (quantData B X q).actFp8 (tok * B.kDim + x) =
      (quantizedData B A X m).actFp8 (tok * B.kDim + x) := by
  have hwidth : B.nKblk * 128 = B.kDim := Nat.div_mul_cancel hB.kDim_dvd
  have hksb : x / 128 < B.nKblk := by omega
  let lane : Fin 32 := ⟨x % 128 / 4, by omega⟩
  let j : Fin 4 := ⟨x % 4, Nat.mod_lt _ (by decide)⟩
  have hplace : B.actOffset (tok, x / 128) lane + j = tok * B.kDim + x := by
    simp only [Build.actOffset, lane, j]
    omega
  have hstore := store_of_quantDone hq hdone htok hksb
    (Or.inr (Or.inl ⟨_, inPair_actOffset (tok, x / 128) lane j, rfl⟩))
  rw [(store_visitPair (tok, x / 128) m lane j).1, hplace] at hstore
  have hload : loaded B (tok, x / 128) m lane j = m (.act (tok * B.kDim + x)) :=
    congrArg (fun i => m (.act i)) hplace
  have hx' : x < B.kDim := by omega
  simp only [quantData, quantizedData, hstore, hload, rowMajor_div hx', rowMajor_mod hx',
    UInt8.toUInt8_toUInt32]
  rfl

/-- And its scales. -/
lemma quantData_actScales
    (hq : Relation.ReflTransGen Step (quantStart B A.e4m3 numTokens m) q) (hdone : QuantDone q)
    (htok : tok < numTokens) {ks : ℕ} (hks : ks < B.nKblk) :
    (quantData B X q).actScales (tok * B.nKblk + ks) =
      (quantizedData B A X m).actScales (tok * B.nKblk + ks) := by
  have hstore := store_of_quantDone hq hdone htok hks (Or.inr (Or.inr rfl))
  rw [(store_visitPair (tok, ks) m 0 0).2] at hstore
  simp only [quantData, quantizedData, rowMajor_div hks, rowMajor_mod hks]
  exact congrArg Float32.ofBits hstore

end Quantized

/-! ## Launches -/

/-- A launch on the rows `m` with the routing `ids`: a run of every phase, in the order in which the
grid barriers put the phases, over memory that holds anything. -/
structure KernelRun (B : Build) (c : LaunchCall) (ids : ℕ → ℤ) (A : TileArith UInt8)
    (X : ExpertData UInt8) (m : QuantCell → UInt32) (P O : Type*) where
  accepted : launcherCheck B c = 0
  tiled : B.Tiled
  routed : RoutedIds B c.phase3Args.numTokens ids
  quant : Threads.Config B.Warp QuantCell UInt32 Empty (ℕ × ℕ) Unit
  quant_reachable :
    Relation.ReflTransGen Step (quantStart B A.e4m3 c.phase3Args.numTokens m) quant
  quant_done : QuantDone quant
  phases : PipelineRun B c.phase3Args ids
  old : Leftovers Float32 P O
  mem : Fin B.gridSize → BlockMem B UInt8
  loops (b : Fin B.gridSize) : TileLoopRun (blockLoop tiled (quantData B X quant) routed
    phases.scheduled (phases.isSorted routed old) (mem b) b) A

namespace KernelRun

variable {c : LaunchCall} {A : TileArith UInt8} {X : ExpertData UInt8} {m : QuantCell → UInt32}
  (run : KernelRun B c ids A X m P O) (ops : RowOps Float32 W P S O) (weights : ℕ → W)

/-- `output_accum` after phase 2. -/
def accum : ℕ → P :=
  storeAll (cellAddr B c.phase3Args.numTokens run.phases.sched (run.phases.sorted run.old))
    (cellReg run.loops ops.partialOf run.old.stage weights) run.old.accum
    (run.phases.cells.map Prod.snd)

/-- The output. -/
def out : ℕ → O :=
  storeAll id (outVal B c.phase3Args ids ops (run.accum ops weights)) run.old.out
    (run.phases.outs.map Prod.snd)

/-- The writeback stores what it would store if every expert computed its row function. -/
lemma accum_eq : run.accum ops weights = run.phases.accum
    { ops with f := (quantData B X run.quant).expertRow A B } weights run.old := by
  refine List.foldl_ext _ _ _ fun mem op hop => ?_
  have hvalid := run.phases.mem_cells.mp hop
  rw [cellReg_eq run.loops ops.partialOf run.old.stage weights hvalid,
    cellVal_eq _ _ _ hvalid.2.2.2]

/-- The output of a token is the sum over its slots of what the experts make of its row. -/
theorem out_eq {tok h : ℕ} (htok : tok < c.phase3Args.numTokens) (hh : h < B.hDim) :
    run.out ops weights (tok * B.hDim + h) =
      moeOut B ids { ops with f := (quantizedData B A X m).expertRow A B } weights tok h := by
  have ha := Launched.of_launcherCheck run.accepted
  have hout := run.phases.out_eq ha run.routed
    { ops with f := (quantData B X run.quant).expertRow A B } weights run.old htok hh
  have hrow : ∀ e, (quantData B X run.quant).expertRow A B e tok h =
      (quantizedData B A X m).expertRow A B e tok h := fun e =>
    ExpertData.expertRow_congr run.tiled
      ⟨fun _ hx => quantData_actFp8 run.tiled run.quant_reachable run.quant_done htok hx,
        fun _ hks => quantData_actScales run.quant_reachable run.quant_done htok hks⟩
      ⟨fun _ _ _ _ => rfl, fun _ _ _ _ => rfl, fun _ _ _ _ => rfl, fun _ _ _ _ => rfl⟩ hh
  unfold out
  rw [accum_eq]
  refine hout.trans ?_
  unfold moeOut
  simp only [hrow]

end KernelRun

/-- A launch that is accepted has a run. -/
lemma exists_kernelRun {c : LaunchCall} (hc : launcherCheck B c = 0) (hB : B.Tiled)
    (hids : RoutedIds B c.phase3Args.numTokens ids) (A : TileArith UInt8) (X : ExpertData UInt8)
    (m : QuantCell → UInt32) (old : Leftovers Float32 P O)
    (mem : Fin B.gridSize → BlockMem B UInt8) : Nonempty (KernelRun B c ids A X m P O) := by
  obtain ⟨quant, hquant, hdone⟩ := exists_quantDone (quantStart B A.e4m3 c.phase3Args.numTokens m)
  have hloops := fun b => (blockLoop hB (quantData B X quant) hids
    (PipelineRun.serial B c.phase3Args ids).scheduled
    ((PipelineRun.serial B c.phase3Args ids).isSorted hids old) (mem b) b).exists_run A
  exact ⟨⟨hc, hB, hids, quant, hquant, hdone, PipelineRun.serial B c.phase3Args ids, old, mem,
    fun b => (hloops b).some⟩⟩

section Outputs

variable {c c' : LaunchCall} {ids' : ℕ → ℤ} {A : TileArith UInt8} {X : ExpertData UInt8}
  {m m' : QuantCell → UInt32}

/-- The output of every run of a launch, element by element: the row of the token is quantized block
by block, every expert that the token is routed to and that is resident computes its row function on
it, and the results are summed in slot order with the routing weights. -/
theorem kernel_output (run : KernelRun B c ids A X m P O) (ops : RowOps Float32 W P S O)
    (weights : ℕ → W) :
    ∀ tok < c.numTokens.toNat, ∀ h < B.hDim, run.out ops weights (tok * B.hDim + h) =
      ops.finish (tok * B.hDim + h) ((ownedSlots B ids tok).foldl (fun s i => ops.add s
        (ops.partialOf ((quantizedData B A X m).expertRow A B (expertOf ids i) tok h)
          (weights i))) ops.zero) :=
  fun _ htok _ hh => run.out_eq ops weights htok hh

/-- Small operands for the tile loops of a build. -/
def smallOperands : ExpertData UInt8 :=
  { qwenTiles.toExpertData with upWScales := fun _ => 2 }

/-- The shared memory of the sample is aligned. -/
lemma onesMem_aligned : 1024 ∣ 1024 := dvd_rfl

/-- And large enough. -/
lemma onesMem_fits (hB : B.Tiled) : 1024 + B.shmTotal ≤ 2 ^ 18 := by
  have hle := hB.shmTotal_le
  omega

/-- Shared memory that begins at its first 1024-byte boundary and is full of ones. -/
def onesMem (hB : B.Tiled) : BlockMem B UInt8 where
  shm := 1024
  noise _ _ _ mem a := mem a + 1
  bar _ _ := ⟨5, 0, 3⟩
  mem₀ _ := 1
  interScales₀ _ := 1
  shm_dvd := onesMem_aligned
  shm_le := onesMem_fits hB

/-- Partials in single precision. -/
def floatOps : RowOps Float32 Float32 Float32 Float32 Float32 where
  f _ _ _ := 0
  partialOf y w := y * w
  zero := 0
  add s p := s + p
  finish _ s := s

/-- The input, and a workspace with the data of an earlier launch. -/
def onesInput : QuantCell → UInt32
  | .act _ => 0x3F80
  | _ => 0xFF

/-- The sample launch has a run. -/
lemma exists_threeTokens_run : Nonempty (KernelRun qwenEP threeTokens twoLocalSlots intArith
    smallOperands onesInput Float32 Float32) := by
  have hids : RoutedIds qwenEP threeTokens.phase3Args.numTokens twoLocalSlots :=
    routedIds_twoLocalSlots
  have htiled : qwenEP.Tiled := Build.Shipped.tiled (Or.inr (Or.inr rfl))
  exact exists_kernelRun (by decide) htiled hids intArith smallOperands onesInput
    ⟨fun _ => 1, fun _ => 1, fun _ => 1, fun _ => 1⟩ fun _ => onesMem htiled

/-- Column 5 of token 1, which is routed to the experts 0 and 1 of this rank. -/
theorem kernel_output_threeTokens :
    let X := quantizedData qwenEP intArith smallOperands onesInput
    ∃ run : KernelRun qwenEP threeTokens twoLocalSlots intArith smallOperands onesInput Float32
        Float32, run.out floatOps (fun _ => 1) (1 * qwenEP.hDim + 5) =
      0 + X.expertRow intArith qwenEP 0 1 5 * 1 + X.expertRow intArith qwenEP 1 1 5 * 1 := by
  obtain ⟨run⟩ := exists_threeTokens_run
  exact ⟨run, kernel_output run floatOps (fun _ => 1) 1 (by decide) 5 (by decide)⟩

/-- The slots of tokens that are routed alike. -/
lemma ownedSlots_congr {tok tok' : ℕ}
    (hids : ∀ kp < B.topK, ids (tok * B.topK + kp) = ids' (tok' * B.topK + kp)) :
    ∃ l : List ℕ, (∀ kp ∈ l, kp < B.topK) ∧
      ownedSlots B ids tok = l.map (fun kp => tok * B.topK + kp) ∧
      ownedSlots B ids' tok' = l.map fun kp => tok' * B.topK + kp := by
  refine ⟨(List.range B.topK).filter fun kp => !B.skips (ids (tok * B.topK + kp)), ?_, ?_, ?_⟩
  · exact fun kp hkp => List.mem_range.mp (List.mem_filter.mp hkp).1
  · unfold ownedSlots
    rw [List.filter_map]
    rfl
  · unfold ownedSlots
    rw [List.filter_map]
    refine congrArg _ (List.filter_congr fun kp hkp => ?_)
    simp only [Function.comp_apply, hids kp (List.mem_range.mp hkp)]

/-- Tokens that are routed alike and of which every expert makes the same have the same output. -/
lemma moeOut_congr {ops : RowOps Float32 W P S O} {store : S → O} {weights weights' : ℕ → W}
    {f f' : ℕ → ℕ → ℕ → Float32} {tok tok' h : ℕ} (hfinish : ∀ x, ops.finish x = store)
    (hids : ∀ kp < B.topK, ids (tok * B.topK + kp) = ids' (tok' * B.topK + kp))
    (hweights : ∀ kp < B.topK, weights (tok * B.topK + kp) = weights' (tok' * B.topK + kp))
    (hf : ∀ e, f e tok h = f' e tok' h) :
    moeOut B ids { ops with f := f } weights tok h =
      moeOut B ids' { ops with f := f' } weights' tok' h := by
  obtain ⟨slots, hlt, hslots, hslots'⟩ := ownedSlots_congr hids
  unfold moeOut
  rw [hslots, hslots', List.foldl_map, List.foldl_map]
  dsimp only
  rw [hfinish, hfinish]
  congr 1
  refine List.foldl_ext _ _ _ fun s kp hkp => ?_
  have hexpert : expertOf ids (tok * B.topK + kp) = expertOf ids' (tok' * B.topK + kp) :=
    congrArg Int.toNat (hids kp (hlt kp hkp))
  rw [hexpert, hweights kp (hlt kp hkp), hf]

/-- Rows that agree are quantized alike, whatever the weights. -/
lemma sameRow_quantizedData (hB : B.Tiled) {Y : ExpertData UInt8} {tok tok' : ℕ}
    (hrow : ∀ x < B.kDim, m (.act (tok * B.kDim + x)) = m' (.act (tok' * B.kDim + x))) :
    SameRow B (quantizedData B A X m) (quantizedData B A Y m') tok tok' := by
  have hwidth : B.nKblk * 128 = B.kDim := Nat.div_mul_cancel hB.kDim_dvd
  have hload : ∀ ks < B.nKblk, loaded B (tok, ks) m = loaded B (tok', ks) m' := by
    intro ks hks
    funext lane j
    have hplace : ∀ t, B.actOffset (t, ks) lane + j = t * B.kDim + (ks * 128 + lane * 4 + j) :=
      fun t => by
        unfold Build.actOffset
        dsimp only
        omega
    unfold loaded
    rw [hplace, hplace]
    exact hrow _ (by omega)
  refine ⟨fun x hx => ?_, fun ks hks => ?_⟩
  · have hx' : x < B.kDim := by omega
    simp only [quantizedData, rowMajor_div hx', rowMajor_mod hx', hrow x hx',
      hload (x / 128) (by omega)]
  · simp only [quantizedData, rowMajor_div hks, rowMajor_mod hks, hload ks hks]

/-- The output of a token is its own.  In two launches, of any sizes and on any other tokens, over
memory that holds anything and in any order of steps, a token with the same row, the same experts
and the same routing weights has the same output. -/
theorem kernel_batch_invariance (run : KernelRun B c ids A X m P O)
    (run' : KernelRun B c' ids' A X m' P O) (ops : RowOps Float32 W P S O) (store : S → O)
    (weights weights' : ℕ → W) (tok tok' h : ℕ) (hfinish : ∀ x, ops.finish x = store)
    (htok : tok < c.numTokens.toNat) (htok' : tok' < c'.numTokens.toNat) (hh : h < B.hDim)
    (hrow : ∀ x < B.kDim, m (.act (tok * B.kDim + x)) = m' (.act (tok' * B.kDim + x)))
    (hids : ∀ kp < B.topK, ids (tok * B.topK + kp) = ids' (tok' * B.topK + kp))
    (hweights : ∀ kp < B.topK, weights (tok * B.topK + kp) = weights' (tok' * B.topK + kp)) :
    run.out ops weights (tok * B.hDim + h) = run'.out ops weights' (tok' * B.hDim + h) := by
  have hexpert : ∀ e, (quantizedData B A X m).expertRow A B e tok h =
      (quantizedData B A X m').expertRow A B e tok' h := fun e =>
    ExpertData.expertRow_congr run.tiled (sameRow_quantizedData run.tiled hrow)
      (SameExpert.refl X e).quantized hh
  exact (run.out_eq ops weights htok hh).trans ((moeOut_congr hfinish hids hweights hexpert).trans
    (run'.out_eq ops weights' htok' hh).symm)

/-- A launch of the expert-parallel build on one token. -/
def oneToken : LaunchCall := { threeTokens with numTokens := 1 }

/-- The last of three tokens, and the same token alone. -/
theorem kernel_batch_invariance_oneToken :
    ∃ (run : KernelRun qwenEP threeTokens twoLocalSlots intArith smallOperands onesInput Float32
        Float32)
      (run' : KernelRun qwenEP oneToken twoLocalSlots intArith smallOperands onesInput Float32
        Float32),
      run.out floatOps (fun _ => 1) (2 * qwenEP.hDim + 5) =
        run'.out floatOps (fun _ => 1) (0 * qwenEP.hDim + 5) := by
  obtain ⟨run⟩ := exists_threeTokens_run
  have hids : RoutedIds qwenEP oneToken.phase3Args.numTokens twoLocalSlots := fun i hi =>
    routedIds_twoLocalSlots i (hi.trans (by decide))
  have halike : ∀ kp < qwenEP.topK,
      twoLocalSlots (2 * qwenEP.topK + kp) = twoLocalSlots (0 * qwenEP.topK + kp) := by
    decide
  obtain ⟨run'⟩ := exists_kernelRun (c := oneToken) (P := Float32) (O := Float32) (by decide)
    run.tiled hids intArith smallOperands onesInput ⟨fun _ => 0, fun _ => 0, fun _ => 0, fun _ => 0⟩
    fun _ => onesMem run.tiled
  exact ⟨run, run', kernel_batch_invariance run run' floatOps (fun s => s) _ _ 2 0 5 (fun _ => rfl)
    (by decide) (by decide) (by decide) (fun _ _ => rfl) halike fun _ _ => rfl⟩

end Outputs

end UnimonoMoe
