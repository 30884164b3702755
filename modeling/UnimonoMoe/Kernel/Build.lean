import Mathlib.Data.Nat.Notation
import Mathlib.Tactic.NormNum

/-!
# The builds of the monokernel and what their launcher checks

`Build` collects the compile-time constants of one `prefill_mono_final_nb.cu`, together with the
relations between them that the source asserts statically or that its index arithmetic takes for
granted.  The three builds of the repository are `deepseekTP`, `qwenTP` and `qwenEP`.

`launcherCheck` is the argument-check part of `launch_prefill_moe_wgmma_q1_ep2` (and of `_tp2` in
the tensor-parallel builds, where the expert map does not exist): the error code, or `0` when the
call goes on to the device.
-/

namespace UnimonoMoe

/-! ## C integers -/

/-- The low 32 bits of an integer, read as a signed number: a cast to `int32`, and what the device
leaves in an `int` register. -/
def toInt32 (x : ℤ) : ℤ := Int.bmod x (2 ^ 32)

/-- A number that fits keeps its value. -/
lemma toInt32_natCast {n : ℕ} (h : n < 2 ^ 31) : toInt32 n = n :=
  Int.bmod_eq_of_le (by omega) (by omega)

/-- The conversion of an `int` to `size_t`. -/
def toSizeT (x : ℤ) : ℕ := (x % 2 ^ 64).toNat

/-- A number of type `int` that is not negative keeps its value. -/
lemma toSizeT_toInt32 {n : ℕ} (h : n < 2 ^ 31) : toSizeT (toInt32 n) = n := by
  rw [toInt32_natCast h]
  unfold toSizeT
  omega

/-- The value of a C expression of type `int`; a signed overflow has none. -/
def cInt (x : ℤ) : Option ℤ := if -2 ^ 31 ≤ x ∧ x < 2 ^ 31 then some x else none

/-- Which expressions of type `int` have a value. -/
lemma cInt_eq_some_iff {x y : ℤ} : cInt x = some y ↔ (-2 ^ 31 ≤ x ∧ x < 2 ^ 31) ∧ x = y := by
  unfold cInt
  split_ifs with h
  · exact ⟨fun heq => ⟨h, Option.some.inj heq⟩, fun heq => heq.2 ▸ rfl⟩
  · exact iff_of_false nofun fun heq => h heq.1

/-! ## Builds -/

/-- The compile-time constants of one build. -/
structure Build where
  /-- `GRID_SIZE`, the persistent blocks. -/
  gridSize : ℕ
  /-- `BLOCK_SIZE`, the threads of a block. -/
  blockSize : ℕ
  /-- `E`, the experts the router scores. -/
  numExperts : ℕ
  /-- `E_LOCAL`, the experts whose weights are resident on this rank. -/
  eLocal : ℕ
  /-- `TOP_K`. -/
  topK : ℕ
  /-- `K_DIM`, the hidden width read by the up projection. -/
  kDim : ℕ
  /-- `N_HALF`, the intermediate width after SiLU. -/
  nHalf : ℕ
  /-- `H_DIM`, the output width. -/
  hDim : ℕ
  /-- `ROUTER_MODE`. -/
  routerMode : ℕ
  /-- `N_GROUP`. -/
  nGroup : ℕ
  /-- `TOPK_GROUP`. -/
  topkGroup : ℕ
  /-- `BLOCK_M`, the rows of a tile. -/
  blockM : ℕ
  /-- `MAX_TILES`. -/
  maxTiles : ℕ
  /-- `TP_MAX_C`, the chunk cap of the fused epilogue. -/
  tpMaxC : ℕ
  /-- The grid barrier and the split of the fused epilogue are for more than one block. -/
  one_lt_gridSize : 1 < gridSize
  /-- Phase 1b runs one thread per expert. -/
  blockSize_eq : blockSize = numExperts
  numExperts_eq : numExperts = 32 * 8
  eLocal_pos : 0 < eLocal
  eLocal_le : eLocal ≤ numExperts
  topK_eq : topK = 8
  /-- `H_DIM` is a whole number of output vectors for every chunk count up to `TP_MAX_C`. -/
  hDim_dvd : 256 ∣ hDim
  hDim_pos : 0 < hDim
  blockM_eq : blockM = 128
  tpMaxC_le : tpMaxC ≤ 16
  /-- Every block arrives at most once per counter, and counters are 32 bits wide. -/
  threads_lt : gridSize * blockSize < 2 ^ 32
  /-- The index arithmetic of the fused epilogue stays below the range of `size_t`. -/
  tiles_mul_hDim_lt : maxTiles * hDim < 2 ^ 36

/-- `EP_BUILD`: only a strict subset of the experts is resident. -/
def Build.epBuild (B : Build) : Bool := B.eLocal != B.numExperts

/-- `N_UP`, gate and up fused. -/
def Build.nUp (B : Build) : ℕ := 2 * B.nHalf

/-- The tensor-parallel DeepSeek-V3 build. -/
def deepseekTP : Build where
  gridSize := 132
  blockSize := 256
  numExperts := 256
  eLocal := 256
  topK := 8
  kDim := 7168
  nHalf := 256
  hDim := 7168
  routerMode := 2
  nGroup := 8
  topkGroup := 4
  blockM := 128
  maxTiles := 32768
  tpMaxC := 16
  one_lt_gridSize := by norm_num
  blockSize_eq := rfl
  numExperts_eq := by norm_num
  eLocal_pos := by norm_num
  eLocal_le := le_rfl
  topK_eq := rfl
  hDim_dvd := by norm_num
  hDim_pos := by norm_num
  blockM_eq := rfl
  tpMaxC_le := le_rfl
  threads_lt := by norm_num
  tiles_mul_hDim_lt := by norm_num

/-- The tensor-parallel Qwen3.5 build. -/
def qwenTP : Build where
  gridSize := 132
  blockSize := 256
  numExperts := 256
  eLocal := 256
  topK := 8
  kDim := 2048
  nHalf := 128
  hDim := 2048
  routerMode := 0
  nGroup := 8
  topkGroup := 4
  blockM := 128
  maxTiles := 32768
  tpMaxC := 16
  one_lt_gridSize := by norm_num
  blockSize_eq := rfl
  numExperts_eq := by norm_num
  eLocal_pos := by norm_num
  eLocal_le := le_rfl
  topK_eq := rfl
  hDim_dvd := by norm_num
  hDim_pos := by norm_num
  blockM_eq := rfl
  tpMaxC_le := le_rfl
  threads_lt := by norm_num
  tiles_mul_hDim_lt := by norm_num

/-- The expert-parallel Qwen3.5 build, 64 of 256 experts resident. -/
def qwenEP : Build where
  gridSize := 132
  blockSize := 256
  numExperts := 256
  eLocal := 64
  topK := 8
  kDim := 2048
  nHalf := 512
  hDim := 2048
  routerMode := 0
  nGroup := 8
  topkGroup := 4
  blockM := 128
  maxTiles := 32768
  tpMaxC := 16
  one_lt_gridSize := by norm_num
  blockSize_eq := rfl
  numExperts_eq := by norm_num
  eLocal_pos := by norm_num
  eLocal_le := by norm_num
  topK_eq := rfl
  hDim_dvd := by norm_num
  hDim_pos := by norm_num
  blockM_eq := rfl
  tpMaxC_le := le_rfl
  threads_lt := by norm_num
  tiles_mul_hDim_lt := by norm_num

/-- The builds of the repository. -/
def Build.Shipped (B : Build) : Prop := B = deepseekTP ∨ B = qwenTP ∨ B = qwenEP

/-- The grid of the builds. -/
lemma Build.Shipped.gridSize_eq {B : Build} (h : B.Shipped) : B.gridSize = 132 := by
  rcases h with rfl | rfl | rfl <;> rfl

/-- The tile table of the builds. -/
lemma Build.Shipped.maxTiles_eq {B : Build} (h : B.Shipped) : B.maxTiles = 32768 := by
  rcases h with rfl | rfl | rfl <;> rfl

namespace Build

variable (B : Build)

/-! ## Constants shared by the three builds -/

/-- `W`, the bf16 elements of one output vector in phase 3. -/
def vecWidth : ℕ := 16

/-- `TP_MM`, the bf16 elements of one 16-byte multimem unit. -/
def tpMM : ℕ := 8

/-- `TP_ALIGN`, the units of one shard group (512 bytes). -/
def tpAlign : ℕ := 32

/-- `UNROLL` of `tp_mm_reduce`. -/
def tpUnroll : ℕ := 4

/-- `NUM_BARRIER_SITES`. -/
def numBarrierSites : ℕ := 4

/-- A grid has a block. -/
lemma gridSize_pos : 0 < B.gridSize := Nat.zero_lt_of_lt B.one_lt_gridSize

/-- A block has a thread. -/
lemma blockSize_pos : 0 < B.blockSize := by
  rw [B.blockSize_eq, B.numExperts_eq]
  norm_num

/-- A thread of the grid: its block and its index in the block. -/
abbrev Thread : Type := Fin B.gridSize × Fin B.blockSize

/-- Thread 0 of a block. -/
def lead (b : Fin B.gridSize) : B.Thread := (b, ⟨0, B.blockSize_pos⟩)

end Build

/-! ## The launcher -/

/-- What the launcher's argument checks look at.  Pointers are represented by whether they are
non-null. -/
structure LaunchCall where
  workspace : Bool
  /-- `workspace_bytes >= sizeof(Workspace)`. -/
  workspaceBytes : Bool
  numTokens : ℤ
  /-- All the operand pointers of the `-104` check. -/
  operands : Bool
  tpMc : Bool
  tpPads : Bool
  tpRank : ℤ
  tpWorld : ℤ
  tpNchunk : ℤ
  tpNcomm : ℤ
  expertMap : Bool

/-- The argument checks of the launcher, in source order: the error code, or `0`.  The tile
height is the compiled `BLOCK_M` whatever the caller passes, so its own check cannot fail. -/
def launcherCheck (B : Build) (c : LaunchCall) : ℤ :=
  if !c.workspace || !c.workspaceBytes then -100
  else if B.epBuild && !c.expertMap then -120
  else if !B.epBuild && c.expertMap then -121
  else if c.numTokens ≤ 0 then -101
  else if c.numTokens * B.topK / B.blockM + B.numExperts > B.maxTiles then -102
  else if !c.operands then -104
  else if c.tpMc && decide (c.tpNcomm > 0) then
    if c.tpNchunk < 1 ∨ c.tpNchunk > B.tpMaxC then -110
    else if c.tpNcomm ≥ B.gridSize then -111
    else if c.tpWorld < 1 ∨ c.tpRank < 0 ∨ c.tpRank ≥ c.tpWorld then -112
    else if !c.tpPads then -113
    else if c.numTokens * B.hDim % (Build.tpMM * c.tpNchunk) ≠ 0 then -114
    else 0
  else 0

/-- An error code in front of the remaining checks. -/
lemma code_eq_zero_iff {p : Prop} [Decidable p] {k x : ℤ} (hk : k ≠ 0) :
    (if p then k else x) = 0 ↔ ¬ p ∧ x = 0 := by
  split_ifs with h <;> simp [h, hk]

/-- The fused epilogue is asked for. -/
def LaunchCall.Fused (c : LaunchCall) : Prop := c.tpMc = true ∧ 0 < c.tpNcomm

/-- What the launcher's argument checks establish. -/
structure Accepted (B : Build) (c : LaunchCall) : Prop where
  expertMap : c.expertMap = B.epBuild
  workspace : c.workspace = true ∧ c.workspaceBytes = true
  numTokens_pos : 0 < c.numTokens
  tiles_le : c.numTokens * B.topK / B.blockM + B.numExperts ≤ B.maxTiles
  operands : c.operands = true
  nchunk : c.Fused → 1 ≤ c.tpNchunk ∧ c.tpNchunk ≤ B.tpMaxC
  ncomm_lt : c.Fused → c.tpNcomm < B.gridSize
  rank : c.Fused → 1 ≤ c.tpWorld ∧ 0 ≤ c.tpRank ∧ c.tpRank < c.tpWorld
  pads : c.Fused → c.tpPads = true
  dvd : c.Fused → c.numTokens * B.hDim % (Build.tpMM * c.tpNchunk) = 0

/-- The launcher returns no argument error exactly on these calls. -/
theorem launcherCheck_eq_zero_iff {B : Build} {c : LaunchCall} :
    launcherCheck B c = 0 ↔ Accepted B c := by
  have hfused : (c.tpMc && decide (c.tpNcomm > 0)) = true ↔ c.Fused := by
    simp [LaunchCall.Fused]
  have htail : ∀ x : ℤ, (if c.tpMc && decide (c.tpNcomm > 0) then x else 0) = 0 ↔
      (c.Fused → x = 0) := by
    intro x
    rw [← hfused]
    split_ifs with h <;> simp [h]
  unfold launcherCheck
  rw [code_eq_zero_iff (by norm_num), code_eq_zero_iff (by norm_num),
    code_eq_zero_iff (by norm_num), code_eq_zero_iff (by norm_num),
    code_eq_zero_iff (by norm_num), code_eq_zero_iff (by norm_num), htail,
    code_eq_zero_iff (by norm_num), code_eq_zero_iff (by norm_num),
    code_eq_zero_iff (by norm_num), code_eq_zero_iff (by norm_num),
    code_eq_zero_iff (by norm_num)]
  constructor
  · rintro ⟨h3, h1, h2, h4, h5, h6, h7⟩
    refine ⟨?_, ?_, by omega, by omega, by simpa using h6, fun hf => ?_, fun hf => ?_,
      fun hf => ?_, fun hf => ?_, fun hf => ?_⟩
    · cases hep : B.epBuild <;> cases hmap : c.expertMap <;> simp_all
    · simpa using h3
    · have := (h7 hf).1
      omega
    · have := (h7 hf).2.1
      omega
    · have := (h7 hf).2.2.1
      omega
    · simpa using (h7 hf).2.2.2.1
    · exact not_not.mp (h7 hf).2.2.2.2.1
  · intro h
    refine ⟨?_, ?_, ?_, ?_, ?_, ?_, fun hf => ⟨?_, ?_, ?_, ?_, ?_, rfl⟩⟩
    · simp [h.workspace]
    · simp [h.expertMap]
    · simp [h.expertMap]
    · have := h.numTokens_pos
      omega
    · have := h.tiles_le
      omega
    · simp [h.operands]
    · have := h.nchunk hf
      omega
    · have := h.ncomm_lt hf
      omega
    · have := h.rank hf
      omega
    · simp [h.pads hf]
    · exact not_not.mpr (h.dvd hf)

end UnimonoMoe
