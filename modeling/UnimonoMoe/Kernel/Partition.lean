import UnimonoMoe.Kernel.Build
import UnimonoMoe.Lib.Loops
import Mathlib.Data.List.ProdSigma
import Mathlib.Tactic.IntervalCases

/-!
# Chunks, shards and the loops of the fused epilogue

The index arithmetic of phase 3 with the tensor-parallel epilogue switched on.  The output is cut
into `nchunk` chunks.  The compute blocks write a chunk in vectors of 16 bf16; the communication
blocks reduce it in units of 8 bf16, each `(rank, communication block)` owning one shard of whole
512-byte groups.

The results say that the two sides mean the same elements by "chunk `c`" (`unitLo_eq`), that every
unit is written by exactly one compute thread of a rank (`exists_unique_writer`) and reduced by
exactly one thread of one communication block of one rank (`exists_unique_reducer`).  The number of
shards is an `int`: the last result needs the product of the world size and the number of
communication blocks to be one, and fails without (`shards_overflow`).
-/

namespace UnimonoMoe

open Loops

/-- The arguments of one fused launch that all ranks must agree on. -/
structure LaunchArgs where
  numTokens : ℕ
  nchunk : ℕ
  ncomm : ℕ
deriving DecidableEq, Repr

/-- What the launcher has checked of the arguments of a fused launch. -/
structure Admitted (B : Build) (a : LaunchArgs) : Prop where
  tiles_le : a.numTokens * B.topK / B.blockM + B.numExperts ≤ B.maxTiles
  nchunk_pos : 1 ≤ a.nchunk
  nchunk_le : a.nchunk ≤ B.tpMaxC
  ncomm_pos : 1 ≤ a.ncomm
  ncomm_lt : a.ncomm < B.gridSize
  dvd : Build.tpMM * a.nchunk ∣ a.numTokens * B.hDim

instance (B : Build) (a : LaunchArgs) : Decidable (Admitted B a) :=
  decidable_of_iff (a.numTokens * B.topK / B.blockM + B.numExperts ≤ B.maxTiles ∧
      1 ≤ a.nchunk ∧ a.nchunk ≤ B.tpMaxC ∧ 1 ≤ a.ncomm ∧ a.ncomm < B.gridSize ∧
      Build.tpMM * a.nchunk ∣ a.numTokens * B.hDim)
    ⟨fun h => ⟨h.1, h.2.1, h.2.2.1, h.2.2.2.1, h.2.2.2.2.1, h.2.2.2.2.2⟩,
      fun h => ⟨h.tiles_le, h.nchunk_pos, h.nchunk_le, h.ncomm_pos, h.ncomm_lt, h.dvd⟩⟩

/-- The launcher call with these arguments on rank `rank` of `world`, all pointers present. -/
def LaunchArgs.call (B : Build) (a : LaunchArgs) (rank world : ℕ) : LaunchCall where
  workspace := true
  workspaceBytes := true
  numTokens := a.numTokens
  operands := true
  tpMc := true
  tpPads := true
  tpRank := rank
  tpWorld := world
  tpNchunk := a.nchunk
  tpNcomm := a.ncomm
  expertMap := B.epBuild

/-- A fused launch that the launcher lets through is admitted. -/
lemma Admitted.of_launcherCheck {B : Build} {a : LaunchArgs} {rank world : ℕ}
    (hncomm : 0 < a.ncomm) (h : launcherCheck B (a.call B rank world) = 0) : Admitted B a := by
  have hok := launcherCheck_eq_zero_iff.mp h
  have hfused : (a.call B rank world).Fused := ⟨rfl, Int.natCast_pos.mpr hncomm⟩
  have hchunk : 1 ≤ (a.nchunk : ℤ) ∧ (a.nchunk : ℤ) ≤ B.tpMaxC := hok.nchunk hfused
  have hcomm : (a.ncomm : ℤ) < B.gridSize := hok.ncomm_lt hfused
  have hdvd : ((a.numTokens * B.hDim : ℕ) : ℤ) % ((Build.tpMM * a.nchunk : ℕ) : ℤ) = 0 := by
    push_cast
    exact hok.dvd hfused
  have htiles : ((a.numTokens * B.topK / B.blockM + B.numExperts : ℕ) : ℤ) ≤ (B.maxTiles : ℕ) := by
    push_cast
    exact hok.tiles_le
  refine ⟨Int.ofNat_le.mp htiles, by omega, by omega, hncomm, by omega, ?_⟩
  exact_mod_cast Int.dvd_of_emod_eq_zero hdvd

namespace LaunchArgs

variable (B : Build) (a : LaunchArgs)

/-! ## The quantities of the source -/

/-- `ncomp`, the blocks that compute. -/
def ncomp : ℕ := B.gridSize - a.ncomm

/-- `out_elems`, the bf16 elements of the output. -/
def outElems : ℕ := a.numTokens * B.hDim

/-- `out_vec`, the output in vectors of `W` elements. -/
def outVec : ℕ := a.outElems B / Build.vecWidth

/-- `out_mv`, the output in multimem units. -/
def outMv : ℕ := a.outElems B / Build.tpMM

/-- `c_lo`, the first vector of chunk `c`; `c_hi` is the next chunk's. -/
def vecLo (c : ℕ) : ℕ := a.outVec B * c / a.nchunk

/-- `lo`, the first unit of chunk `c`; `hi` is the next chunk's. -/
def unitLo (c : ℕ) : ℕ := a.outMv B * c / a.nchunk

/-- `ng`, the 512-byte groups of chunk `c`. -/
def groups (c : ℕ) : ℕ := (a.unitLo B (c + 1) - a.unitLo B c + Build.tpAlign - 1) / Build.tpAlign

/-- `nsh`, the shards of a chunk: a product of type `int`, converted where it divides. -/
def shards (world : ℕ) : ℕ := toSizeT (toInt32 (world * a.ncomm : ℕ))

/-- `sh`, the shard of communication block `cb` on `rank`, an `int` as well. -/
def shardOf (rank cb : ℕ) : ℕ := toSizeT (toInt32 (rank * a.ncomm + cb : ℕ))

/-- `s_lo` of shard `sh`, before clipping; `s_hi` is the next shard's.  The product has the type of
`ng`, which is `size_t`. -/
def shardLo (world c sh : ℕ) : ℕ :=
  a.unitLo B c + a.groups B c * sh % 2 ^ 64 / a.shards world * Build.tpAlign

/-- The bound of shard `sh` that `tp_mm_reduce` receives, clipped to the chunk. -/
def shardClip (world c sh : ℕ) : ℕ :=
  if a.shardLo B world c sh < a.unitLo B (c + 1) then a.shardLo B world c sh
  else a.unitLo B (c + 1)

/-- `gtid`. -/
def gtid (t : B.Thread) : ℕ := t.1 * B.blockSize + t.2

/-- The two 16-byte stores that write vector `iv`, as units. -/
def vecUnits (iv : ℕ) : List ℕ := [2 * iv, 2 * iv + 1]

/-- The vectors of chunk `c` that compute thread `t` writes, in order. -/
def computeVecs (c : ℕ) (t : B.Thread) : List ℕ :=
  strided (a.vecLo B c + gtid B t) (a.vecLo B (c + 1)) (a.ncomp B * B.blockSize)

/-- The units of chunk `c` that compute thread `t` writes, in order. -/
def computeUnits (c : ℕ) (t : B.Thread) : List ℕ :=
  (a.computeVecs B c t).flatMap vecUnits

/-- The passes of `tp_mm_reduce` over its range for thread `tid`. -/
def reduceBases (world c sh tid : ℕ) : List ℕ :=
  unrolledBases (a.shardClip B world c sh) (a.shardClip B world c (sh + 1)) B.blockSize
    Build.tpUnroll tid

/-- The live units of the pass at `base`. -/
def reducePass (world c sh base : ℕ) : List ℕ :=
  unrolledPass (a.shardClip B world c (sh + 1)) B.blockSize Build.tpUnroll base

/-- Thread `tid` of the communication block with shard `sh` reduces unit `u` of chunk `c`. -/
def Reduces (world c sh tid u : ℕ) : Prop :=
  ∃ base ∈ a.reduceBases B world c sh tid, u ∈ a.reducePass B world c sh base

/-! ## Chunks -/

variable {B a}

/-- There is a compute block. -/
lemma ncomp_pos (h : a.ncomm < B.gridSize) : 0 < a.ncomp B := Nat.sub_pos_of_lt h

/-- The chunks are cut in order. -/
lemma vecLo_mono : Monotone (a.vecLo B) := evenCut_mono _ _

/-- So are their units. -/
lemma unitLo_mono : Monotone (a.unitLo B) := evenCut_mono _ _

/-- The first chunk starts at the first unit. -/
@[simp] lemma unitLo_zero : a.unitLo B 0 = 0 := by simp [unitLo]

/-- The last one ends with the last unit. -/
lemma unitLo_nchunk (h : Admitted B a) : a.unitLo B a.nchunk = a.outMv B :=
  Nat.mul_div_cancel _ h.nchunk_pos

/-- The output is a whole number of vectors, two units each. -/
lemma outMv_eq : a.outMv B = 2 * a.outVec B := by
  obtain ⟨k, hk⟩ := B.hDim_dvd
  unfold outMv outVec outElems
  rw [hk, show a.numTokens * (256 * k) = 256 * (a.numTokens * k) by ring]
  unfold Build.tpMM Build.vecWidth
  omega

/-- The launcher's divisibility check makes every chunk a whole number of vectors. -/
lemma nchunk_dvd_outVec (h : Admitted B a) : a.nchunk ∣ a.outVec B := by
  obtain ⟨k, hk⟩ := B.hDim_dvd
  have hle : a.nchunk ≤ 16 := h.nchunk_le.trans B.tpMaxC_le
  have hvec : a.outVec B = 16 * (a.numTokens * k) := by
    unfold outVec outElems
    rw [hk, show a.numTokens * (256 * k) = 256 * (a.numTokens * k) by ring]
    unfold Build.vecWidth
    omega
  have hdvd : 8 * a.nchunk ∣ 256 * (a.numTokens * k) := by
    have := h.dvd
    rwa [hk, show a.numTokens * (256 * k) = 256 * (a.numTokens * k) by ring] at this
  rw [hvec]
  generalize a.numTokens * k = x at hdvd
  generalize hn : a.nchunk = n at hdvd hle
  interval_cases n <;> omega

/-- Both sides mean the same elements by chunk `c`. -/
theorem unitLo_eq (h : Admitted B a) (c : ℕ) : a.unitLo B c = 2 * a.vecLo B c := by
  obtain ⟨q, hq⟩ := nchunk_dvd_outVec h
  have hpos : 0 < a.nchunk := h.nchunk_pos
  unfold unitLo vecLo
  rw [outMv_eq, hq, show 2 * (a.nchunk * q) * c = a.nchunk * (2 * (q * c)) by ring,
    show a.nchunk * q * c = a.nchunk * (q * c) by ring, Nat.mul_div_cancel_left _ hpos,
    Nat.mul_div_cancel_left _ hpos]

/-- Every unit of the output lies in exactly one chunk. -/
theorem exists_unique_chunk (h : Admitted B a) {u : ℕ} (hu : u < a.outMv B) :
    ∃! c, c < a.nchunk ∧ a.unitLo B c ≤ u ∧ u < a.unitLo B (c + 1) :=
  exists_unique_evenPiece h.nchunk_pos hu

/-! ## The compute side -/

/-- The units of a vector. -/
lemma mem_vecUnits {iv u : ℕ} : u ∈ vecUnits iv ↔ u / 2 = iv := by
  simp only [vecUnits, List.mem_cons, List.not_mem_nil, or_false]
  omega

/-- A thread stores the units of its vectors. -/
lemma mem_computeUnits {c u : ℕ} {t : B.Thread} :
    u ∈ a.computeUnits B c t ↔ u / 2 ∈ a.computeVecs B c t := by
  unfold computeUnits
  rw [List.mem_flatMap]
  constructor
  · rintro ⟨iv, hiv, hu⟩
    rwa [mem_vecUnits.mp hu]
  · intro hu
    exact ⟨u / 2, hu, mem_vecUnits.mpr rfl⟩

/-- No compute thread writes a unit twice. -/
lemma nodup_computeUnits (h : Admitted B a) (c : ℕ) (t : B.Thread) :
    (a.computeUnits B c t).Nodup := by
  have hstep : 0 < a.ncomp B * B.blockSize := Nat.mul_pos (ncomp_pos h.ncomm_lt) B.blockSize_pos
  refine List.nodup_flatMap.mpr ⟨fun iv _ => by simp [vecUnits], ?_⟩
  refine List.Pairwise.imp ?_ (nodup_strided hstep)
  intro v w hne u hv hw
  exact hne ((mem_vecUnits.mp hv).symm.trans (mem_vecUnits.mp hw))

/-- The global index of a compute thread is below the stride of the compute loop. -/
lemma gtid_lt {t : B.Thread} (ht : t.1 < a.ncomp B) : gtid B t < a.ncomp B * B.blockSize :=
  rowMajor_lt ht t.2.isLt

/-- Two threads with the same global index are the same. -/
lemma gtid_injective : Function.Injective (gtid B) := by
  intro t t' heq
  obtain ⟨hblock, hthread⟩ := rowMajor_inj t.2.isLt t'.2.isLt heq
  exact Prod.ext (Fin.ext hblock) (Fin.ext hthread)

/-- Every vector of a chunk is written by exactly one thread of the compute blocks. -/
theorem exists_unique_vecWriter (h : a.ncomm < B.gridSize) {c iv : ℕ} (hlo : a.vecLo B c ≤ iv)
    (hhi : iv < a.vecLo B (c + 1)) :
    ∃! t : B.Thread, t.1 < a.ncomp B ∧ iv ∈ a.computeVecs B c t := by
  have hstep : 0 < a.ncomp B * B.blockSize := Nat.mul_pos (ncomp_pos h) B.blockSize_pos
  obtain ⟨w, ⟨hw, hmem⟩, huniq⟩ := exists_unique_strided hstep hlo hhi
  have hblock : w / B.blockSize < a.ncomp B := (Nat.div_lt_iff_lt_mul B.blockSize_pos).mpr hw
  have hgrid : w / B.blockSize < B.gridSize := hblock.trans_le (Nat.sub_le _ _)
  let t : B.Thread := (⟨w / B.blockSize, hgrid⟩, ⟨w % B.blockSize, Nat.mod_lt _ B.blockSize_pos⟩)
  have ht : gtid B t = w := by
    unfold gtid
    rw [Nat.mul_comm]
    exact Nat.div_add_mod w B.blockSize
  refine ⟨t, ⟨hblock, ?_⟩, ?_⟩
  · unfold computeVecs
    rwa [ht]
  · rintro t' ⟨ht', hmem'⟩
    apply gtid_injective
    rw [ht]
    exact huniq (gtid B t') ⟨gtid_lt ht', hmem'⟩

/-- Every unit of a chunk is written by exactly one thread of the compute blocks. -/
theorem exists_unique_writer (h : Admitted B a) {c u : ℕ} (hlo : a.unitLo B c ≤ u)
    (hhi : u < a.unitLo B (c + 1)) :
    ∃! t : B.Thread, t.1 < a.ncomp B ∧ u ∈ a.computeUnits B c t := by
  rw [unitLo_eq h] at hlo hhi
  obtain ⟨t, ⟨ht, hmem⟩, huniq⟩ := exists_unique_vecWriter h.ncomm_lt
    (show a.vecLo B c ≤ u / 2 by omega) (show u / 2 < a.vecLo B (c + 1) by omega)
  refine ⟨t, ⟨ht, mem_computeUnits.mpr hmem⟩, ?_⟩
  rintro t' ⟨ht', hmem'⟩
  exact huniq t' ⟨ht', mem_computeUnits.mp hmem'⟩

/-! ## The communication side -/

variable {world : ℕ}

/-- The number of shards that fits an `int`. -/
lemma shards_eq (hfit : world * a.ncomm < 2 ^ 31) : a.shards world = world * a.ncomm :=
  toSizeT_toInt32 hfit

/-- The shards of such a world are numbered by rank, then by communication block. -/
lemma shardOf_eq (hfit : world * a.ncomm < 2 ^ 31) {rank cb : ℕ} (hrank : rank < world)
    (hcb : cb < a.ncomm) : a.shardOf rank cb = rank * a.ncomm + cb :=
  toSizeT_toInt32 ((rowMajor_lt hrank hcb).trans hfit)

/-- Every communication block has a shard of its launch. -/
lemma shardOf_lt (hfit : world * a.ncomm < 2 ^ 31) {rank cb : ℕ} (hrank : rank < world)
    (hcb : cb < a.ncomm) : a.shardOf rank cb < a.shards world := by
  rw [shards_eq hfit, shardOf_eq hfit hrank hcb]
  exact rowMajor_lt hrank hcb

/-- Every shard is the one of a communication block. -/
lemma shardOf_div_mod (h : Admitted B a) (hfit : world * a.ncomm < 2 ^ 31) {sh : ℕ}
    (hsh : sh < a.shards world) :
    sh / a.ncomm < world ∧ sh % a.ncomm < a.ncomm ∧
      a.shardOf (sh / a.ncomm) (sh % a.ncomm) = sh := by
  rw [shards_eq hfit] at hsh
  have hrank : sh / a.ncomm < world := Nat.div_lt_of_lt_mul (by rwa [Nat.mul_comm])
  have hcb : sh % a.ncomm < a.ncomm := Nat.mod_lt _ h.ncomm_pos
  refine ⟨hrank, hcb, ?_⟩
  rw [shardOf_eq hfit hrank hcb]
  exact Nat.div_add_mod' sh a.ncomm

/-- Two communication blocks with the same shard are the same. -/
lemma shardOf_inj (hfit : world * a.ncomm < 2 ^ 31) {rank rank' cb cb' : ℕ} (hrank : rank < world)
    (hrank' : rank' < world) (hcb : cb < a.ncomm) (hcb' : cb' < a.ncomm)
    (heq : a.shardOf rank cb = a.shardOf rank' cb') : rank = rank' ∧ cb = cb' := by
  rw [shardOf_eq hfit hrank hcb, shardOf_eq hfit hrank' hcb'] at heq
  exact rowMajor_inj hcb hcb' heq

/-- The tile table bounds the groups of a chunk. -/
lemma groups_lt (h : Admitted B a) {c : ℕ} (hc : c < a.nchunk) : a.groups B c < 2 ^ 33 := by
  have htokens : a.numTokens ≤ 16 * B.maxTiles := by
    have htiles := h.tiles_le
    rw [B.topK_eq, B.blockM_eq, B.numExperts_eq] at htiles
    omega
  have hout : a.outElems B ≤ 16 * (B.maxTiles * B.hDim) := by
    rw [← mul_assoc]
    exact Nat.mul_le_mul_right _ htokens
  have hchunk : a.unitLo B (c + 1) ≤ a.outMv B :=
    (unitLo_mono hc).trans_eq (unitLo_nchunk h)
  have hsize := B.tiles_mul_hDim_lt
  unfold outMv Build.tpMM at hchunk
  unfold groups Build.tpAlign
  omega

/-- The bounds of the shards of a chunk, in plain arithmetic: nothing overflows. -/
lemma shardLo_eq (h : Admitted B a) (hfit : world * a.ncomm < 2 ^ 31) {c sh : ℕ}
    (hc : c < a.nchunk) (hsh : sh ≤ world * a.ncomm) :
    a.shardLo B world c sh =
      a.unitLo B c + a.groups B c * sh / (world * a.ncomm) * Build.tpAlign := by
  have hprod : a.groups B c * sh < 2 ^ 64 := by
    calc a.groups B c * sh ≤ 2 ^ 33 * sh := Nat.mul_le_mul_right _ (groups_lt h hc).le
      _ < 2 ^ 33 * 2 ^ 31 := Nat.mul_lt_mul_of_pos_left (hsh.trans_lt hfit) (by norm_num)
      _ = 2 ^ 64 := by norm_num
  unfold shardLo
  rw [shards_eq hfit, Nat.mod_eq_of_lt hprod]

/-- A shard begins in its chunk or behind it. -/
lemma unitLo_le_shardLo (world c sh : ℕ) : a.unitLo B c ≤ a.shardLo B world c sh := by
  unfold shardLo
  exact Nat.le_add_right _ _

/-- Clipping a bound is taking a minimum. -/
lemma shardClip_eq_min (world c sh : ℕ) :
    a.shardClip B world c sh = min (a.shardLo B world c sh) (a.unitLo B (c + 1)) := by
  unfold shardClip
  split_ifs <;> omega

/-- The shards of a chunk, clipped to it, split it without gap or overlap. -/
theorem exists_unique_shard (h : Admitted B a) (hworld : 0 < world)
    (hfit : world * a.ncomm < 2 ^ 31) {c u : ℕ} (hc : c < a.nchunk) (hlo : a.unitLo B c ≤ u)
    (hhi : u < a.unitLo B (c + 1)) :
    ∃! sh, sh < a.shards world ∧ a.shardClip B world c sh ≤ u ∧
      u < a.shardClip B world c (sh + 1) := by
  have hpos : 0 < world * a.ncomm := Nat.mul_pos hworld h.ncomm_pos
  have hmono : Monotone fun sh => a.unitLo B c +
      a.groups B c * sh / (world * a.ncomm) * Build.tpAlign := fun _ _ hle =>
    Nat.add_le_add_left (Nat.mul_le_mul_right _ (evenCut_mono _ _ hle)) _
  have hend : u < a.unitLo B c +
      a.groups B c * (world * a.ncomm) / (world * a.ncomm) * Build.tpAlign := by
    rw [Nat.mul_div_cancel _ hpos]
    unfold groups Build.tpAlign
    omega
  obtain ⟨sh, ⟨hsh, hshlo, hshhi⟩, huniq⟩ :=
    exists_unique_piece hmono (by simpa using hlo) hend
  rw [shards_eq hfit]
  -- up to the last shard the bounds of the source are the plain ones
  have hclip : ∀ i ≤ world * a.ncomm, a.shardClip B world c i =
      min (a.unitLo B c + a.groups B c * i / (world * a.ncomm) * Build.tpAlign)
        (a.unitLo B (c + 1)) := fun i hi => by
    rw [shardClip_eq_min, shardLo_eq h hfit hc hi]
  refine ⟨sh, ⟨hsh, ?_, ?_⟩, ?_⟩
  · rw [hclip sh hsh.le]
    omega
  · rw [hclip (sh + 1) hsh]
    omega
  · rintro sh' ⟨hsh', hlo', hhi'⟩
    rw [hclip sh' hsh'.le] at hlo'
    rw [hclip (sh' + 1) hsh'] at hhi'
    exact huniq sh' ⟨hsh', by omega, by omega⟩

/-- What thread `tid` of a communication block reduces. -/
lemma reduces_iff {c sh tid u : ℕ} (htid : tid < B.blockSize) :
    a.Reduces B world c sh tid u ↔ a.shardClip B world c sh ≤ u ∧
      u < a.shardClip B world c (sh + 1) ∧ (u - a.shardClip B world c sh) % B.blockSize = tid :=
  mem_unrolled htid (by norm_num [Build.tpUnroll])

/-- The units a communication block reduces for chunk `c` belong to chunk `c`. -/
lemma reduces_bounds {c sh tid u : ℕ} (htid : tid < B.blockSize)
    (hu : a.Reduces B world c sh tid u) : a.unitLo B c ≤ u ∧ u < a.unitLo B (c + 1) := by
  obtain ⟨hlo, hhi, _⟩ := (reduces_iff htid).mp hu
  rw [shardClip_eq_min] at hlo hhi
  have hshard : a.unitLo B c ≤ a.shardLo B world c sh := unitLo_le_shardLo world c sh
  omega

/-- Every unit of a chunk is reduced by exactly one thread of one communication block of one
rank. -/
theorem exists_unique_reducer (h : Admitted B a) (hworld : 0 < world)
    (hfit : world * a.ncomm < 2 ^ 31) {c u : ℕ} (hc : c < a.nchunk) (hlo : a.unitLo B c ≤ u)
    (hhi : u < a.unitLo B (c + 1)) :
    ∃! p : ℕ × ℕ × ℕ, p.1 < world ∧ p.2.1 < a.ncomm ∧ p.2.2 < B.blockSize ∧
      a.Reduces B world c (a.shardOf p.1 p.2.1) p.2.2 u := by
  obtain ⟨sh, ⟨hsh, hshlo, hshhi⟩, huniq⟩ := exists_unique_shard h hworld hfit hc hlo hhi
  obtain ⟨hdiv, hmod, hsplit⟩ := shardOf_div_mod h hfit hsh
  have htid : (u - a.shardClip B world c sh) % B.blockSize < B.blockSize :=
    Nat.mod_lt _ B.blockSize_pos
  refine ⟨(sh / a.ncomm, sh % a.ncomm, (u - a.shardClip B world c sh) % B.blockSize),
    ⟨hdiv, hmod, htid, ?_⟩, ?_⟩
  · rw [hsplit]
    exact (reduces_iff htid).mpr ⟨hshlo, hshhi, rfl⟩
  · rintro ⟨rank, cb, tid⟩ ⟨hrank, hcb, htid', hred⟩
    obtain ⟨hlo', hhi', heq⟩ := (reduces_iff htid').mp hred
    have hsame : a.shardOf rank cb = sh := huniq _ ⟨shardOf_lt hfit hrank hcb, hlo', hhi'⟩
    obtain ⟨hr, hc⟩ := shardOf_inj hfit hdiv hrank hmod hcb (hsplit.trans hsame.symm)
    rw [hsame] at heq
    rw [hr, hc, heq]

/-! ## Both sides together -/

/-- The threads of the compute blocks. -/
def computeThreads (B : Build) (a : LaunchArgs) : List B.Thread :=
  (List.finRange B.gridSize ×ˢ List.finRange B.blockSize).filter fun t => t.1 < a.ncomp B

/-- The units of shard `sh` that thread `tid` of its communication block reduces, in order. -/
def reduceUnits (B : Build) (a : LaunchArgs) (world c sh tid : ℕ) : List ℕ :=
  (a.reduceBases B world c sh tid).flatMap (a.reducePass B world c sh)

/-- The threads of the compute blocks. -/
lemma mem_computeThreads {t : B.Thread} : t ∈ computeThreads B a ↔ t.1 < a.ncomp B := by
  unfold computeThreads
  rw [List.mem_filter, decide_eq_true_eq]
  exact and_iff_right (List.mem_product.mpr ⟨List.mem_finRange t.1, List.mem_finRange t.2⟩)

/-- The last chunk ends with the last vector. -/
lemma vecLo_nchunk (h : Admitted B a) : a.vecLo B a.nchunk = a.outVec B :=
  Nat.mul_div_cancel _ h.nchunk_pos

/-- A chunk ends inside the output. -/
lemma vecLo_succ_le (h : Admitted B a) {c : ℕ} (hc : c < a.nchunk) :
    a.vecLo B (c + 1) ≤ a.outVec B :=
  (vecLo_mono hc).trans_eq (vecLo_nchunk h)

/-- A thread takes the vectors of the chunk with its number modulo that of the compute threads. -/
lemma mem_computeVecs {c iv : ℕ} {t : B.Thread} (ht : t.1 < a.ncomp B) :
    iv ∈ a.computeVecs B c t ↔ a.vecLo B c ≤ iv ∧ iv < a.vecLo B (c + 1) ∧
      (iv - a.vecLo B c) % (a.ncomp B * B.blockSize) = gtid B t :=
  mem_strided_worker (gtid_lt ht)

/-- The chunks and the strided loops of the compute blocks visit every vector exactly once. -/
theorem computeVecs_perm (h : Admitted B a) :
    ((List.range a.nchunk ×ˢ computeThreads B a).flatMap fun p =>
      a.computeVecs B p.1 p.2).Perm (List.range (a.outVec B)) := by
  have hstep : 0 < a.ncomp B * B.blockSize := Nat.mul_pos (ncomp_pos h.ncomm_lt) B.blockSize_pos
  have hthreads : (computeThreads B a).Nodup :=
    ((List.nodup_finRange _).product (List.nodup_finRange _)).filter _
  have hrange : List.range (a.outVec B) = List.range' 0 (a.outVec B - 0) := List.range_eq_range'
  rw [hrange]
  refine flatMap_perm_range (List.nodup_range.product hthreads)
    (fun p _ => nodup_strided hstep) (fun p hp iv hiv => ?_) fun iv _ hhi => ?_
  · obtain ⟨hc, ht⟩ := List.mem_product.mp hp
    obtain ⟨_, hlt, _⟩ := (mem_computeVecs (mem_computeThreads.mp ht)).mp hiv
    exact ⟨Nat.zero_le _, hlt.trans_le (vecLo_succ_le h (List.mem_range.mp hc))⟩
  · obtain ⟨c, ⟨hc, hclo, hchi⟩, hcu⟩ := exists_unique_evenPiece h.nchunk_pos hhi
    obtain ⟨t, ⟨ht, hmem⟩, htu⟩ := exists_unique_vecWriter h.ncomm_lt hclo hchi
    refine ⟨(c, t), ⟨List.mem_product.mpr ⟨List.mem_range.mpr hc, mem_computeThreads.mpr ht⟩,
      hmem⟩, ?_⟩
    rintro ⟨c', t'⟩ ⟨hp, hmem'⟩
    obtain ⟨hc', ht'⟩ := List.mem_product.mp hp
    obtain ⟨hlo', hhi', _⟩ := (mem_computeVecs (mem_computeThreads.mp ht')).mp hmem'
    obtain rfl : c' = c := hcu c' ⟨List.mem_range.mp hc', hlo', hhi'⟩
    rw [htu t' ⟨mem_computeThreads.mp ht', hmem'⟩]

/-- The shards of all communication blocks of all ranks, clipped to a chunk, are its units, each
once. -/
theorem shards_perm (h : Admitted B a) (hworld : 0 < world) (hfit : world * a.ncomm < 2 ^ 31)
    {c : ℕ} (hc : c < a.nchunk) :
    ((List.range world ×ˢ List.range a.ncomm).flatMap fun p =>
      List.range' (a.shardClip B world c (a.shardOf p.1 p.2))
        (a.shardClip B world c (a.shardOf p.1 p.2 + 1) -
          a.shardClip B world c (a.shardOf p.1 p.2))).Perm
      (List.range' (a.unitLo B c) (a.unitLo B (c + 1) - a.unitLo B c)) := by
  refine flatMap_perm_range (List.nodup_range.product List.nodup_range)
    (fun p _ => List.nodup_range') (fun p _ u hu => ?_) fun u hlo hhi => ?_
  · rw [List.mem_range'_1] at hu
    have hshard : a.unitLo B c ≤ a.shardLo B world c (a.shardOf p.1 p.2) :=
      unitLo_le_shardLo world c _
    have hchunk : a.unitLo B c ≤ a.unitLo B (c + 1) := unitLo_mono (Nat.le_succ c)
    rw [shardClip_eq_min] at hu
    have hlast : a.shardClip B world c (a.shardOf p.1 p.2 + 1) ≤ a.unitLo B (c + 1) := by
      rw [shardClip_eq_min]
      exact min_le_right _ _
    omega
  · obtain ⟨sh, ⟨hsh, hshlo, hshhi⟩, huniq⟩ := exists_unique_shard h hworld hfit hc hlo hhi
    obtain ⟨hdiv, hmod, hsplit⟩ := shardOf_div_mod h hfit hsh
    refine ⟨(sh / a.ncomm, sh % a.ncomm), ⟨List.mem_product.mpr
      ⟨List.mem_range.mpr hdiv, List.mem_range.mpr hmod⟩, ?_⟩, ?_⟩
    · rw [hsplit, List.mem_range'_1]
      omega
    · rintro ⟨rank, cb⟩ ⟨hp, hu⟩
      obtain ⟨hrank, hcb⟩ := List.mem_product.mp hp
      rw [List.mem_range] at hrank hcb
      simp only [List.mem_range'_1] at hu
      have hsame : a.shardOf rank cb = sh :=
        huniq _ ⟨shardOf_lt hfit hrank hcb, by omega, by omega⟩
      obtain ⟨hr, hc⟩ := shardOf_inj hfit hdiv hrank hmod hcb (hsplit.trans hsame.symm)
      rw [hr, hc]

/-- All threads of a communication block together reduce every unit of its shard exactly once. -/
theorem reduceUnits_perm (B : Build) (a : LaunchArgs) (world c sh : ℕ) :
    ((List.range B.blockSize).flatMap fun tid => a.reduceUnits B world c sh tid).Perm
      (List.range' (a.shardClip B world c sh)
        (a.shardClip B world c (sh + 1) - a.shardClip B world c sh)) := by
  have hunroll : 0 < Build.tpUnroll := by norm_num [Build.tpUnroll]
  have hmem : ∀ tid u, u ∈ a.reduceUnits B world c sh tid ↔ a.Reduces B world c sh tid u :=
    fun tid u => List.mem_flatMap
  refine flatMap_perm_range List.nodup_range (fun tid htid => ?_) (fun tid htid u hu => ?_)
    fun u hlo hhi => ?_
  · have htid' : tid < B.blockSize := List.mem_range.mp htid
    refine List.nodup_flatMap.mpr ⟨fun base _ => nodup_unrolledPass _ _ _ B.blockSize_pos, ?_⟩
    refine List.Pairwise.imp_of_mem ?_ (nodup_strided (Nat.mul_pos hunroll B.blockSize_pos))
    intro base base' hbase hbase' hne u hu hu'
    exact hne (unrolledBases_injOn htid' hunroll hbase hbase' hu hu')
  · obtain ⟨hlo, hhi, _⟩ := (reduces_iff (List.mem_range.mp htid)).mp ((hmem tid u).mp hu)
    exact ⟨hlo, hhi⟩
  · have hlt : (u - a.shardClip B world c sh) % B.blockSize < B.blockSize :=
      Nat.mod_lt _ B.blockSize_pos
    refine ⟨_, ⟨List.mem_range.mpr hlt, (hmem _ u).mpr ((reduces_iff hlt).mpr ⟨hlo, hhi, rfl⟩)⟩, ?_⟩
    rintro tid ⟨htid, hu⟩
    exact ((reduces_iff (List.mem_range.mp htid)).mp ((hmem tid u).mp hu)).2.2.symm

/-- The partition of the fused epilogue is exact.  For every fused launch that passes the
launcher's checks and every world whose number of shards is an `int`: both sides mean the same
elements by a chunk, the compute blocks visit every vector once, the shards split every chunk
without gap or overlap, the threads of a communication block visit every unit of its shard once,
and no element at or beyond `num_tokens * H_DIM` is touched. -/
theorem fused_partition_exact {rank : ℕ} (hncomm : 1 ≤ a.ncomm)
    (hcall : launcherCheck B (a.call B rank world) = 0) (hfit : world * a.ncomm < 2 ^ 31) :
    (∀ c ≤ a.nchunk, a.vecLo B c * Build.vecWidth = a.unitLo B c * Build.tpMM) ∧
    ((List.range a.nchunk ×ˢ computeThreads B a).flatMap fun p =>
      a.computeVecs B p.1 p.2).Perm (List.range (a.outVec B)) ∧
    (∀ c < a.nchunk, ((List.range world ×ˢ List.range a.ncomm).flatMap fun p =>
      List.range' (a.shardClip B world c (a.shardOf p.1 p.2))
        (a.shardClip B world c (a.shardOf p.1 p.2 + 1) -
          a.shardClip B world c (a.shardOf p.1 p.2))).Perm
      (List.range' (a.unitLo B c) (a.unitLo B (c + 1) - a.unitLo B c))) ∧
    (∀ c < a.nchunk, ∀ sh, ((List.range B.blockSize).flatMap fun tid =>
      a.reduceUnits B world c sh tid).Perm
        (List.range' (a.shardClip B world c sh)
          (a.shardClip B world c (sh + 1) - a.shardClip B world c sh))) ∧
    (∀ c < a.nchunk, ∀ t ∈ computeThreads B a, ∀ iv ∈ a.computeVecs B c t,
      (iv + 1) * Build.vecWidth ≤ a.numTokens * B.hDim) ∧
    (∀ c < a.nchunk, ∀ sh, ∀ tid < B.blockSize, ∀ u ∈ a.reduceUnits B world c sh tid,
      (u + 1) * Build.tpMM ≤ a.numTokens * B.hDim) := by
  have h := Admitted.of_launcherCheck hncomm hcall
  have hworld : 0 < world := by
    have hfused : (a.call B rank world).Fused := ⟨rfl, Int.natCast_pos.mpr hncomm⟩
    have hone : (1 : ℤ) ≤ world := ((launcherCheck_eq_zero_iff.mp hcall).rank hfused).1
    omega
  refine ⟨fun c _ => ?_, computeVecs_perm h, fun c hc => shards_perm h hworld hfit hc,
    fun c _ sh => reduceUnits_perm B a world c sh, fun c hc t ht iv hiv => ?_,
    fun c hc sh tid htid u hu => ?_⟩
  · rw [unitLo_eq h]
    unfold Build.vecWidth Build.tpMM
    omega
  · obtain ⟨_, hlt, _⟩ := (mem_computeVecs (mem_computeThreads.mp ht)).mp hiv
    have hle : iv + 1 ≤ a.outVec B := hlt.trans_le (vecLo_succ_le h hc)
    exact (Nat.mul_le_mul_right _ hle).trans (Nat.div_mul_le_self _ _)
  · obtain ⟨_, hlt⟩ := reduces_bounds htid (List.mem_flatMap.mp hu)
    have hle : u + 1 ≤ a.outMv B :=
      (hlt.trans_le (unitLo_mono hc)).trans_eq (unitLo_nchunk h)
    exact (Nat.mul_le_mul_right _ hle).trans (Nat.div_mul_le_self _ _)

/-- Three tokens in three chunks, four ranks, five communication blocks. -/
theorem fused_partition_exact_threeChunks :
    ((List.range' 0 (LaunchArgs.unitLo deepseekTP ⟨3, 3, 5⟩ 1)).Perm
      ((List.range 4 ×ˢ List.range 5).flatMap fun p =>
        List.range' (LaunchArgs.shardClip deepseekTP ⟨3, 3, 5⟩ 4 0
            (LaunchArgs.shardOf ⟨3, 3, 5⟩ p.1 p.2))
          (LaunchArgs.shardClip deepseekTP ⟨3, 3, 5⟩ 4 0
              (LaunchArgs.shardOf ⟨3, 3, 5⟩ p.1 p.2 + 1) -
            LaunchArgs.shardClip deepseekTP ⟨3, 3, 5⟩ 4 0
              (LaunchArgs.shardOf ⟨3, 3, 5⟩ p.1 p.2)))) :=
  ((fused_partition_exact (by decide) (by decide :
    launcherCheck deepseekTP (LaunchArgs.call deepseekTP ⟨3, 3, 5⟩ 2 4) = 0) (by norm_num)).2.2.1 0
      (by decide)).symm

/-- The shard of a communication block among 16393006 ranks of 131: past the range of `int` it is
negative, and huge as a `size_t`. -/
lemma shardOf_overflow {rank cb : ℕ} (hrank : rank < 16393006) (hcb : cb < 131) :
    shardOf ⟨1, 1, 131⟩ rank cb < 2 ^ 31 ∨
      ∃ k, 2147483510 < k ∧ k ≤ 2 ^ 31 ∧ shardOf ⟨1, 1, 131⟩ rank cb + k = 2 ^ 64 := by
  have hlt : rank * 131 + cb < 2147483786 := rowMajor_lt hrank hcb
  unfold shardOf
  change toSizeT (toInt32 (rank * 131 + cb : ℕ)) < _ ∨ ∃ k, _ ∧ _ ∧ toSizeT (toInt32 _) + k = _
  generalize rank * 131 + cb = x at hlt
  rcases lt_or_ge x (2 ^ 31) with hx | hx
  · left
    rwa [toSizeT_toInt32 hx]
  · right
    have hneg : toInt32 x = x - 2 ^ 32 := by
      unfold toInt32 Int.bmod
      norm_num
      omega
    refine ⟨2 ^ 32 - x, by omega, by omega, ?_⟩
    rw [hneg]
    unfold toSizeT
    omega

/-- The number of these shards is negative as an `int`, so that every shard is empty. -/
lemma shardClip_of_overflow {rank cb : ℕ} (hrank : rank < 16393006) (hcb : cb < 131) {k : ℕ}
    (hk : k ≤ 1) :
    shardClip deepseekTP ⟨1, 1, 131⟩ 16393006 0 (shardOf ⟨1, 1, 131⟩ rank cb + k) = 0 := by
  have hgroups : groups deepseekTP ⟨1, 1, 131⟩ 0 = 28 := by decide
  have hshards : shards ⟨1, 1, 131⟩ 16393006 = 2 ^ 64 - 2147483510 := by decide
  have hsmall : 28 * (shardOf ⟨1, 1, 131⟩ rank cb + k) % 2 ^ 64 < 2 ^ 64 - 2147483510 := by
    rcases shardOf_overflow hrank hcb with hlt | ⟨j, hj, hle, heq⟩
    · rw [Nat.mod_eq_of_lt (by omega)]
      omega
    · have hwrap : 28 * (shardOf ⟨1, 1, 131⟩ rank cb + k) = 27 * 2 ^ 64 + (2 ^ 64 - 28 * (j - k)) :=
        by omega
      rw [hwrap, Nat.mul_add_mod', Nat.mod_eq_of_lt (by omega)]
      omega
  rw [shardClip_eq_min]
  unfold shardLo
  rw [hgroups, hshards, unitLo_zero, Nat.div_eq_of_lt hsmall, Nat.zero_mul, Nat.add_zero,
    Nat.zero_min]

/-- The launcher lets the launch through on every rank, and nobody reduces the one chunk of its
output. -/
theorem shards_overflow :
    (∀ rank < 16393006, launcherCheck deepseekTP
      ((⟨1, 1, 131⟩ : LaunchArgs).call deepseekTP rank 16393006) = 0) ∧
    ¬ ((List.range 16393006 ×ˢ List.range 131).flatMap fun p =>
      List.range' (shardClip deepseekTP ⟨1, 1, 131⟩ 16393006 0 (shardOf ⟨1, 1, 131⟩ p.1 p.2))
        (shardClip deepseekTP ⟨1, 1, 131⟩ 16393006 0 (shardOf ⟨1, 1, 131⟩ p.1 p.2 + 1) -
          shardClip deepseekTP ⟨1, 1, 131⟩ 16393006 0 (shardOf ⟨1, 1, 131⟩ p.1 p.2))).Perm
      (List.range' (unitLo deepseekTP ⟨1, 1, 131⟩ 0)
        (unitLo deepseekTP ⟨1, 1, 131⟩ 1 - unitLo deepseekTP ⟨1, 1, 131⟩ 0)) := by
  refine ⟨fun rank hrank => ?_, fun hperm => ?_⟩
  · have hlt : (rank : ℤ) < 16393006 := Int.ofNat_lt.mpr hrank
    have hone : launcherCheck deepseekTP ((⟨1, 1, 131⟩ : LaunchArgs).call deepseekTP 0 16393006) =
      0 := by decide
    -- the ranks differ in `tp_rank` only
    have hok := launcherCheck_eq_zero_iff.mp hone
    exact launcherCheck_eq_zero_iff.mpr { hok with
      rank := fun hfused => ⟨(hok.rank hfused).1, Int.natCast_nonneg _, hlt⟩ }
  · have hunit : unitLo deepseekTP ⟨1, 1, 131⟩ 0 = 0 ∧ unitLo deepseekTP ⟨1, 1, 131⟩ 1 = 896 := by
      decide
    rw [hunit.1, hunit.2] at hperm
    have hzero := hperm.mem_iff.mpr (List.mem_range'_1.mpr ⟨le_refl 0, by norm_num⟩)
    obtain ⟨⟨rank, cb⟩, hmem, hin⟩ := List.mem_flatMap.mp hzero
    obtain ⟨hrank, hcb⟩ := List.mem_product.mp hmem
    rw [List.mem_range] at hrank hcb
    have hlast := shardClip_of_overflow hrank hcb (le_refl 1)
    rw [List.mem_range'_1, hlast] at hin
    omega

end LaunchArgs

end UnimonoMoe
