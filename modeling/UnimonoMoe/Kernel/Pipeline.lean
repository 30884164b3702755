import UnimonoMoe.Kernel.Sort
import Mathlib.Data.List.ProdSigma

/-!
# Tiles, writeback and reduction

Phases 2 and 3.  The blocks take tiles off the schedule; for every row of a tile the down
projection's writeback stores one bf16 partial per output column into `output_accum`, at a cell
determined by the flattened (token, slot) pair and the column.  Phase 3 sums, for every output
element, the cells of the token's slots in slot order.

`RowOps` holds what is not modelled: the row function of an expert (up projection, SiLU-mul,
quantization and down projection) and the arithmetic of the partials.  `PipelineRun` is one run of
all phases under an arbitrary interleaving of each.  `pipeline_correct` says that the result is the
sum in slot order, whatever the interleavings and whatever `output_accum` held before.
-/

namespace UnimonoMoe

open Loops Interleaving PrefixSum

/-- The arithmetic of a row: the down projection `f e tok h` of token `tok` by expert `e` at
column `h`, the partial that a weight makes of it, the accumulator of phase 3 and the final store
of output element `x`. -/
structure RowOps (Y W P S O : Type*) where
  f : ℕ → ℕ → ℕ → Y
  partialOf : Y → W → P
  zero : S
  add : S → P → S
  finish : ℕ → S → O

/-! ## The launcher's view of phase 3 -/

/-- The arguments of phase 3: one chunk and no communication block unless the fused epilogue is
on. -/
def LaunchCall.phase3Args (c : LaunchCall) : LaunchArgs :=
  let tp := c.tpMc && c.tpPads && decide (c.tpNcomm > 0)
  ⟨c.numTokens.toNat, if tp then c.tpNchunk.toNat else 1, if tp then c.tpNcomm.toNat else 0⟩

/-- What phases 2 and 3 rely on. -/
structure Launched (B : Build) (a : LaunchArgs) : Prop where
  tiles_le : B.numel a.numTokens / B.blockM + B.numExperts ≤ B.maxTiles
  nchunk_pos : 0 < a.nchunk
  ncomm_lt : a.ncomm < B.gridSize

/-- The launcher's checks establish it. -/
lemma Launched.of_launcherCheck {B : Build} {c : LaunchCall} (h : launcherCheck B c = 0) :
    Launched B c.phase3Args := by
  have hok := launcherCheck_eq_zero_iff.mp h
  have htiles : ((B.numel c.numTokens.toNat / B.blockM + B.numExperts : ℕ) : ℤ) ≤ B.maxTiles := by
    have hpos := hok.numTokens_pos
    unfold Build.numel
    push_cast
    rw [Int.toNat_of_nonneg hpos.le]
    exact hok.tiles_le
  have hfused : (c.tpMc && c.tpPads && decide (c.tpNcomm > 0)) = true → c.Fused := by
    intro htp
    simp only [Bool.and_eq_true, decide_eq_true_eq] at htp
    exact ⟨htp.1.1, htp.2⟩
  refine ⟨by exact_mod_cast htiles, ?_, ?_⟩
  · unfold LaunchCall.phase3Args
    simp only
    split_ifs with htp
    · have := hok.nchunk (hfused htp)
      omega
    · exact Nat.one_pos
  · unfold LaunchCall.phase3Args
    simp only
    split_ifs with htp
    · have hlt := hok.ncomm_lt (hfused htp)
      have hpos := (hfused htp).2
      omega
    · exact B.gridSize_pos

/-! ## Phase 2: the tiles -/

/-- `N_FEAT`, the columns of one pass. -/
def nFeat : ℕ := 64

/-- `NUM_WG`, the warpgroups of a block. -/
def numWg : ℕ := 2

/-- `PASSES_PER_WG`. -/
def Build.passesPerWg (B : Build) : ℕ := B.hDim / nFeat / numWg

/-- One store of the writeback: row `m` of a tile, column `col` of pass `gfp`. -/
@[ext]
structure CellOp where
  tile : ℕ
  gfp : ℕ
  m : ℕ
  col : ℕ
deriving DecidableEq, Repr

section Writeback

variable (B : Build) (numTokens : ℕ) (sched : Schedule) (sorted : ℕ → ℕ)

/-- `rows` of a tile. -/
def tileRows (tile : ℕ) : ℕ :=
  min B.blockM (sched.offsets (sched.tileExpert tile + 1) - sched.tileRowStart tile)

/-- `row_fi[m]` of a row below `rows`. -/
def rowFi (tile m : ℕ) : ℕ := sorted (sched.tileRowStart tile + m)

/-- The cell of `output_accum` for pair `fi` and column `col` of pass `gfp`. -/
def cellIndex (gfp fi col : ℕ) : ℕ := gfp * (B.numel numTokens * nFeat) + fi * nFeat + col

/-- The address a store goes to. -/
def cellAddr (op : CellOp) : ℕ :=
  cellIndex B numTokens op.gfp (rowFi sched sorted op.tile op.m) op.col

/-- The row of the staging buffer at which a thread of a warpgroup leaves its accumulator `dr`. -/
def stageRow (warp lane dr : ℕ) : ℕ := warp * 16 + lane / 4 + dr / 2 % 2 * 8

/-- Its column. -/
def stageCol (lane dr : ℕ) : ℕ := lane % 4 * 2 + dr % 2 + dr / 4 * 8

/-- The place in the staging buffer of accumulator `(warp, lane, dr)`. -/
def stageAddr (p : ℕ × ℕ × ℕ) : ℕ := stageRow p.1 p.2.1 p.2.2 * 64 + stageCol p.2.1 p.2.2

/-- The accumulators `(warp, lane, dr)` of a warpgroup. -/
def stageOps : List (ℕ × ℕ × ℕ) := List.range 4 ×ˢ (List.range 32 ×ˢ List.range 32)

/-- The staging buffer `wb_stage` of a warpgroup after its threads have stored their accumulators
of one sub-tile; `d m n` is the accumulator for row `m` and column `n`. -/
def wbStage {Y : Type*} (stage₀ : ℕ → Y) (d : ℕ → ℕ → Y) : ℕ → Y :=
  storeAll stageAddr (fun p => d (stageRow p.1 p.2.1 p.2.2) (stageCol p.2.1 p.2.2)) stage₀ stageOps

/-- The value a store writes: the staged accumulator of its row and column, scaled by the
routing weight of the row. -/
def cellVal {Y W P S O : Type*} (ops : RowOps Y W P S O) (stage₀ : ℕ → Y) (weights : ℕ → W)
    (op : CellOp) : P :=
  let d : ℕ → ℕ → Y := fun r n =>
    ops.f (sched.tileExpert op.tile) (rowFi sched sorted op.tile (op.m / 64 * 64 + r) / B.topK)
      (op.gfp * nFeat + n)
  ops.partialOf (wbStage stage₀ d (op.m % 64 * 64 + op.col))
    (weights (rowFi sched sorted op.tile op.m))

/-- The store that thread `tid` makes at `(tile, p, sb, rb / 16, q)`. -/
def cellOp (tid : ℕ) (p : ℕ × ℕ × ℕ × ℕ × ℕ) : CellOp where
  tile := p.1
  gfp := tid / 128 + p.2.1 * numWg
  m := p.2.2.1 * 64 + p.2.2.2.1 * 16 + tid % 128 / 8
  col := tid % 128 % 8 * 8 + p.2.2.2.2

/-- The stores of a thread of phase 2, over the tiles of its block. -/
def cellProg (t : B.Thread) : List CellOp :=
  ((strided t.1 sched.totalTiles B.gridSize ×ˢ (List.range B.passesPerWg ×ˢ (List.range 2 ×ˢ
    (List.range 4 ×ˢ List.range 8)))).map (cellOp t.2)).filter
      fun op => op.m < tileRows B sched op.tile

/-- The stores phase 2 has to make. -/
def ValidCell (op : CellOp) : Prop :=
  op.tile < sched.totalTiles ∧ op.gfp < B.passesPerWg * numWg ∧ op.m < tileRows B sched op.tile ∧
    op.col < nFeat

end Writeback

section WritebackLemmas

variable {B : Build} {numTokens : ℕ} {sched : Schedule} {sorted : ℕ → ℕ}

/-- Four warps of 32 lanes with 32 registers. -/
lemma mem_stageOps {p : ℕ × ℕ × ℕ} : p ∈ stageOps ↔ p.1 < 4 ∧ p.2.1 < 32 ∧ p.2.2 < 32 := by
  obtain ⟨warp, lane, dr⟩ := p
  simp only [stageOps, List.mem_product, List.mem_range]

/-- Each accumulator is stored once. -/
lemma nodup_stageOps : stageOps.Nodup :=
  List.nodup_range.product (List.nodup_range.product List.nodup_range)

/-- Two accumulators have different places. -/
lemma stageAddr_inj : ∀ p ∈ stageOps, ∀ q ∈ stageOps, stageAddr p = stageAddr q → p = q := by
  have hcol : ∀ {lane dr : ℕ}, dr < 32 → stageCol lane dr < 64 := by
    intro lane dr hdr
    unfold stageCol
    omega
  rintro ⟨w, l, k⟩ hp ⟨w', l', k'⟩ hq heq
  obtain ⟨hw, hl, hk⟩ := mem_stageOps.mp hp
  obtain ⟨hw', hl', hk'⟩ := mem_stageOps.mp hq
  obtain ⟨hrow, hcolumn⟩ := rowMajor_inj (hcol hk) (hcol hk') heq
  simp only [stageRow, stageCol] at hrow hcolumn hw hl hk hw' hl' hk'
  simp only [Prod.mk.injEq]
  omega

/-- The threads of a warpgroup fill the staging buffer. -/
lemma wbStage_eq {Y : Type*} (stage₀ : ℕ → Y) (d : ℕ → ℕ → Y) {m n : ℕ} (hm : m < 64)
    (hn : n < 64) : wbStage stage₀ d (m * 64 + n) = d m n := by
  -- the accumulator that holds row `m` and column `n`
  obtain ⟨p, hp, hrow, hcolumn⟩ : ∃ p ∈ stageOps, stageRow p.1 p.2.1 p.2.2 = m ∧
      stageCol p.2.1 p.2.2 = n := by
    refine ⟨(m / 16, m % 8 * 4 + n % 8 / 2, n / 8 * 4 + m % 16 / 8 * 2 + n % 2),
      mem_stageOps.mpr ⟨?_, ?_, ?_⟩, ?_, ?_⟩ <;> simp only [stageRow, stageCol] <;> omega
  have haddr : m * 64 + n = stageAddr p := by rw [stageAddr, hrow, hcolumn]
  rw [haddr, wbStage, storeAll_of_mem nodup_stageOps stageAddr_inj hp, hrow, hcolumn]

/-- The value a store writes, without the staging. -/
lemma cellVal_eq {Y W P S O : Type*} (ops : RowOps Y W P S O) (stage₀ : ℕ → Y) (weights : ℕ → W)
    {op : CellOp} (hcol : op.col < nFeat) :
    cellVal B sched sorted ops stage₀ weights op =
      ops.partialOf (ops.f (sched.tileExpert op.tile) (rowFi sched sorted op.tile op.m / B.topK)
        (op.gfp * nFeat + op.col)) (weights (rowFi sched sorted op.tile op.m)) := by
  simp only [cellVal]
  rw [wbStage_eq _ _ (Nat.mod_lt _ (by norm_num)) hcol]
  have hm : op.m / 64 * 64 + op.m % 64 = op.m := by omega
  simp only [hm]

/-- A block has 256 threads. -/
lemma blockSize_eq_256 : B.blockSize = 256 := by
  rw [B.blockSize_eq, B.numExperts_eq]

/-- Every store of phase 2 is made by exactly one thread, once. -/
theorem covers_cellProg : Covers (cellProg B sched) (ValidCell B sched) := by
  have hgrid := B.gridSize_pos
  have hsize := blockSize_eq_256 (B := B)
  have hmem : ∀ (t : B.Thread) (op : CellOp), op ∈ cellProg B sched t ↔ ValidCell B sched op ∧
      op.tile % B.gridSize = t.1 ∧
        op.gfp % numWg * 128 + op.m % 16 * 8 + op.col / 8 = t.2 := by
    intro t op
    have htid : (t.2 : ℕ) < 256 := lt_of_lt_of_eq t.2.isLt hsize
    have hworker : op.tile ∈ strided (0 + (t.1 : ℕ)) sched.totalTiles B.gridSize ↔ _ :=
      mem_strided_worker t.1.isLt
    rw [Nat.zero_add, Nat.sub_zero] at hworker
    have hrows : tileRows B sched op.tile ≤ 128 := (Nat.min_le_left _ _).trans B.blockM_eq.le
    unfold cellProg ValidCell
    simp only [List.mem_filter, List.mem_map, List.mem_product, List.mem_range,
      decide_eq_true_eq, Prod.exists, numWg, nFeat]
    constructor
    · rintro ⟨⟨tile, p, sb, rb, q, ⟨htile, hp, hsb, hrb, hq⟩, rfl⟩, hm⟩
      simp only [cellOp, numWg] at hm hworker ⊢
      obtain ⟨_, hlt, hmod⟩ := hworker.mp htile
      refine ⟨⟨hlt, ?_, hm, ?_⟩, hmod, ?_⟩ <;> omega
    · rintro ⟨⟨htile, hgfp, hm, hcol⟩, hmod, htid'⟩
      refine ⟨⟨op.tile, op.gfp / 2, op.m / 64, op.m % 64 / 16, op.col % 8,
        ⟨hworker.mpr ⟨Nat.zero_le _, htile, hmod⟩, ?_, ?_, ?_, ?_⟩, ?_⟩, hm⟩
      · omega
      · omega
      · omega
      · omega
      · apply CellOp.ext <;> simp only [cellOp, numWg] <;> omega
  refine ⟨fun t => ?_, fun op hop => ?_, fun t op hop => ((hmem t op).mp hop).1,
    fun t t' op hop hop' => ?_⟩
  · refine (List.Nodup.map_on ?_ ((nodup_strided hgrid).product (List.nodup_range.product
      (List.nodup_range.product (List.nodup_range.product List.nodup_range))))).filter _
    rintro ⟨tile, p, sb, rb, q⟩ hx ⟨tile', p', sb', rb', q'⟩ hx' heq
    simp only [List.mem_product, List.mem_range] at hx hx'
    obtain ⟨h1, h2, h3, h4⟩ := CellOp.mk.inj heq
    simp only [numWg] at h1 h2 h3 h4
    simp only [Prod.mk.injEq]
    omega
  · obtain ⟨_, _, hm, hcol⟩ := id hop
    have hrows : tileRows B sched op.tile ≤ 128 := (Nat.min_le_left _ _).trans B.blockM_eq.le
    unfold nFeat at hcol
    have htid : op.gfp % numWg * 128 + op.m % 16 * 8 + op.col / 8 < B.blockSize := by
      unfold numWg
      omega
    exact ⟨(⟨_, Nat.mod_lt _ hgrid⟩, ⟨_, htid⟩), (hmem _ op).mpr ⟨hop, rfl, rfl⟩⟩
  · obtain ⟨_, hb, ht⟩ := (hmem t op).mp hop
    obtain ⟨_, hb', ht'⟩ := (hmem t' op).mp hop'
    exact Prod.ext (Fin.ext (hb.symm.trans hb')) (Fin.ext (ht.symm.trans ht'))

/-! ### Which cells the tiles write -/

variable {ids : ℕ → ℤ}

/-- A tile of the schedule is tile `i` of some expert `e`. -/
lemma Scheduled.tile_decode {c : ℕ → ℕ} (h : Scheduled B c sched) {tile : ℕ}
    (htile : tile < sched.totalTiles) : ∃ e i, e < B.numExperts ∧ i * B.blockM < c e ∧
      sched.tileExpert tile = e ∧ sched.tileRowStart tile = offset c e + i * B.blockM ∧
        tileRows B sched tile = min B.blockM (c e - i * B.blockM) ∧
          tile = offset (B.tilesOf c) e + i := by
  rw [h.totalTiles] at htile
  obtain ⟨e, ⟨he, hlo, hhi⟩, _⟩ := exists_unique_region htile
  obtain ⟨i, rfl⟩ := Nat.exists_eq_add_of_le hlo
  have hi : i < B.tilesOf c e := Nat.lt_of_add_lt_add_left hhi
  obtain ⟨hexpert, hstart⟩ := h.tile e he i hi
  refine ⟨e, i, he, mul_lt_of_lt_tiles blockM_pos hi, hexpert, hstart, ?_, rfl⟩
  unfold tileRows
  rw [hexpert, hstart, h.offsets (e + 1) he, offset_succ, Nat.add_sub_add_left]

/-- A row of a tile lies in the region of the tile's expert. -/
lemma Scheduled.row_inRegion {c : ℕ → ℕ} (h : Scheduled B c sched) {tile m : ℕ}
    (htile : tile < sched.totalTiles) (hm : m < tileRows B sched tile) :
    sched.tileExpert tile < B.numExperts ∧
      InRegion c (sched.tileExpert tile) (sched.tileRowStart tile + m) := by
  obtain ⟨e, i, he, _, rfl, hstart, hrows, _⟩ := h.tile_decode htile
  rw [hrows] at hm
  refine ⟨he, ?_, ?_⟩ <;> rw [hstart] <;> omega

/-- Every place of a region is a row of a tile of its expert. -/
lemma Scheduled.exists_row {c : ℕ → ℕ} (h : Scheduled B c sched) {e x : ℕ}
    (he : e < B.numExperts) (hx : InRegion c e x) : ∃ tile m, tile < sched.totalTiles ∧
      m < tileRows B sched tile ∧ sched.tileExpert tile = e ∧ sched.tileRowStart tile + m = x := by
  obtain ⟨hlo, hhi⟩ := hx
  have hi : (x - offset c e) / B.blockM < B.tilesOf c e := div_lt_tiles blockM_pos (by omega)
  obtain ⟨hexpert, hstart⟩ := h.tile e he _ hi
  have hdiv := Nat.div_add_mod (x - offset c e) B.blockM
  have hmod := Nat.mod_lt (x - offset c e) (blockM_pos (B := B))
  rw [Nat.mul_comm] at hdiv
  refine ⟨offset (B.tilesOf c) e + (x - offset c e) / B.blockM, (x - offset c e) % B.blockM, ?_,
    ?_, hexpert, ?_⟩
  · rw [h.totalTiles]
    exact InRegion.lt_total ⟨Nat.le_add_right _ _, Nat.add_lt_add_left hi _⟩ he
  · unfold tileRows
    rw [hexpert, hstart, h.offsets (e + 1) he, offset_succ, Nat.add_sub_add_left]
    omega
  · rw [hstart]
    omega

/-- No place is a row of two tiles. -/
lemma Scheduled.row_inj {c : ℕ → ℕ} (h : Scheduled B c sched) {tile tile' m m' : ℕ}
    (htile : tile < sched.totalTiles) (htile' : tile' < sched.totalTiles)
    (hm : m < tileRows B sched tile) (hm' : m' < tileRows B sched tile')
    (heq : sched.tileRowStart tile + m = sched.tileRowStart tile' + m') :
    tile = tile' ∧ m = m' := by
  have hsame : sched.tileExpert tile = sched.tileExpert tile' :=
    region_unique (h.row_inRegion htile hm).2 (heq ▸ (h.row_inRegion htile' hm').2)
  obtain ⟨e, i, _, _, rfl, hstart, hrows, htileEq⟩ := h.tile_decode htile
  obtain ⟨e', i', _, _, rfl, hstart', hrows', htileEq'⟩ := h.tile_decode htile'
  rw [← hsame] at hstart' hrows' htileEq'
  rw [hstart, hstart', Nat.add_assoc, Nat.add_assoc] at heq
  obtain ⟨hii, hmm⟩ := rowMajor_inj (hm.trans_le (hrows ▸ Nat.min_le_left _ _))
    (hm'.trans_le (hrows' ▸ Nat.min_le_left _ _)) (Nat.add_left_cancel heq)
  exact ⟨by rw [htileEq, htileEq', hii], hmm⟩

/-- A cell determines its pass, its pair and its column. -/
lemma cellIndex_inj {gfp gfp' fi fi' col col' : ℕ} (hfi : fi < B.numel numTokens)
    (hfi' : fi' < B.numel numTokens) (hcol : col < nFeat) (hcol' : col' < nFeat)
    (heq : cellIndex B numTokens gfp fi col = cellIndex B numTokens gfp' fi' col') :
    gfp = gfp' ∧ fi = fi' ∧ col = col' := by
  unfold cellIndex at heq
  rw [Nat.add_assoc, Nat.add_assoc] at heq
  obtain ⟨hgfp, hrest⟩ := rowMajor_inj (rowMajor_lt hfi hcol) (rowMajor_lt hfi' hcol') heq
  exact ⟨hgfp, rowMajor_inj hcol hcol' hrest⟩

/-- A store of phase 2 is for an owned pair, and its tile is of the pair's expert. -/
lemma ValidCell.owned {op : CellOp} (hop : ValidCell B sched op)
    (hsched : Scheduled B (slotCount B numTokens ids) sched)
    (hsorted : Sorted B numTokens ids sorted) :
    Owned B numTokens ids (rowFi sched sorted op.tile op.m) ∧
      expertOf ids (rowFi sched sorted op.tile op.m) = sched.tileExpert op.tile := by
  obtain ⟨he, hregion⟩ := hsched.row_inRegion hop.1 hop.2.2.1
  exact hsorted.owned _ _ he hregion

/-- Two stores of phase 2 never go to one cell. -/
lemma cellAddr_inj (hsched : Scheduled B (slotCount B numTokens ids) sched)
    (hsorted : Sorted B numTokens ids sorted) {op op' : CellOp} (hop : ValidCell B sched op)
    (hop' : ValidCell B sched op')
    (heq : cellAddr B numTokens sched sorted op = cellAddr B numTokens sched sorted op') :
    op = op' := by
  have hown := (hop.owned hsched hsorted).1
  have hown' := (hop'.owned hsched hsorted).1
  obtain ⟨htile, _, hm, hcol⟩ := hop
  obtain ⟨htile', _, hm', hcol'⟩ := hop'
  obtain ⟨hgfp, hfi, hcolumn⟩ := cellIndex_inj hown.1 hown'.1 hcol hcol' heq
  obtain ⟨he, hregion⟩ := hsched.row_inRegion htile hm
  obtain ⟨he', hregion'⟩ := hsched.row_inRegion htile' hm'
  have hplace := hsorted.inj _ _ (hregion.lt_total he) (hregion'.lt_total he') hfi
  obtain ⟨htiles, hrows⟩ := hsched.row_inj htile htile' hm hm' hplace
  exact CellOp.ext htiles hgfp hrows hcolumn

/-- The passes of the warp groups cover the hidden dimension. -/
lemma passes_eq : B.passesPerWg * numWg * nFeat = B.hDim := by
  obtain ⟨k, hk⟩ := B.hDim_dvd
  simp only [Build.passesPerWg, numWg, nFeat]
  omega

/-- Every column of every owned pair has a store. -/
lemma exists_validCell (hids : RoutedIds B numTokens ids)
    (hsched : Scheduled B (slotCount B numTokens ids) sched)
    (hsorted : Sorted B numTokens ids sorted) {i h : ℕ} (hi : Owned B numTokens ids i)
    (hh : h < B.hDim) : ∃ op, ValidCell B sched op ∧ rowFi sched sorted op.tile op.m = i ∧
      op.gfp = h / nFeat ∧ op.col = h % nFeat := by
  obtain ⟨x, hregion, rfl⟩ := hsorted.place i hi
  have he := (hi.expertOf_lt hids).trans_le B.eLocal_le
  obtain ⟨tile, m, htile, hm, _, rfl⟩ := hsched.exists_row he hregion
  have hgfp : h / nFeat < B.passesPerWg * numWg := by
    rw [Nat.div_lt_iff_lt_mul (by norm_num [nFeat]), passes_eq]
    exact hh
  exact ⟨⟨tile, h / nFeat, m, h % nFeat⟩, ⟨htile, hgfp, hm, Nat.mod_lt _ (by norm_num [nFeat])⟩,
    rfl, rfl, rfl⟩

end WritebackLemmas

/-! ## Phase 3: the reduction -/

section Reduction

variable (B : Build) (a : LaunchArgs) (ids : ℕ → ℤ)

/-- The elements that vector `iv` consists of. -/
def vecElems (iv : ℕ) : List ℕ :=
  (List.range Build.vecWidth).map fun q => iv * Build.vecWidth + q

/-- The output elements a thread of a compute block computes, in order. -/
def outProg (t : B.Thread) : List ℕ :=
  if (t.1 : ℕ) < a.ncomp B then
    (List.range a.nchunk).flatMap fun ch => (a.computeVecs B ch t).flatMap vecElems
  else []

/-- The slots of token `tok` that phase 3 sums, in order. -/
def ownedSlots (tok : ℕ) : List ℕ :=
  ((List.range B.topK).map fun kp => tok * B.topK + kp).filter fun i => !B.skips (ids i)

/-- The cells of `output_accum` that output element `x` is summed from, in order: with
`iv = x / W` and `q = x % W`, the token is `iv / HV`, and the source is at column `h % N_FEAT + q`
of plane `h / N_FEAT` for `h = iv % HV * W`. -/
def cellReads (x : ℕ) : List ℕ :=
  let iv := x / Build.vecWidth
  let hv := B.hDim / Build.vecWidth
  let h := iv % hv * Build.vecWidth
  (ownedSlots B ids (iv / hv)).map fun i =>
    cellIndex B a.numTokens (h / nFeat) i (h % nFeat + x % Build.vecWidth)

/-- The value of output element `x`. -/
def outVal {Y W P S O : Type*} (ops : RowOps Y W P S O) (accum : ℕ → P) (x : ℕ) : O :=
  ops.finish x ((cellReads B a ids x).foldl (fun s cell => ops.add s (accum cell)) ops.zero)

variable {B a ids}

/-- The owned slots of a token. -/
lemma mem_ownedSlots {tok i : ℕ} (htok : tok < a.numTokens) :
    i ∈ ownedSlots B ids tok ↔ Owned B a.numTokens ids i ∧ i / B.topK = tok := by
  simp only [ownedSlots, Owned, List.mem_filter, List.mem_map, List.mem_range, Bool.not_eq_true']
  constructor
  · rintro ⟨⟨k, hk, rfl⟩, hskip⟩
    exact ⟨⟨rowMajor_lt htok hk, hskip⟩, rowMajor_div hk⟩
  · rintro ⟨⟨_, hskip⟩, rfl⟩
    refine ⟨⟨i % B.topK, Nat.mod_lt _ topK_pos, ?_⟩, hskip⟩
    rw [Nat.mul_comm]
    exact Nat.div_add_mod i B.topK

/-- The elements of a vector. -/
lemma mem_vecElems {iv x : ℕ} : x ∈ vecElems iv ↔ x / Build.vecWidth = iv := by
  simp only [vecElems, List.mem_map, List.mem_range, Build.vecWidth]
  constructor
  · rintro ⟨q, hq, rfl⟩
    omega
  · rintro rfl
    exact ⟨x % 16, by omega, by omega⟩

/-- The output consists of whole vectors. -/
lemma outVec_mul : a.outVec B * Build.vecWidth = a.outElems B := by
  obtain ⟨k, hk⟩ := B.hDim_dvd
  have hsize : a.outElems B = 256 * (a.numTokens * k) := by
    unfold LaunchArgs.outElems
    rw [hk]
    ring
  unfold LaunchArgs.outVec Build.vecWidth
  omega

/-- The position of element `h` of token `tok`, as the source decodes it. -/
lemma cellReads_eq {tok h : ℕ} (hh : h < B.hDim) : cellReads B a ids (tok * B.hDim + h) =
    (ownedSlots B ids tok).map fun i => cellIndex B a.numTokens (h / nFeat) i (h % nFeat) := by
  obtain ⟨k, hk⟩ := B.hDim_dvd
  have hhv : B.hDim = B.hDim / 16 * 16 := by omega
  have hiv : (tok * B.hDim + h) / 16 = tok * (B.hDim / 16) + h / 16 := by
    have hsplit : tok * B.hDim = tok * (B.hDim / 16) * 16 := by
      rw [Nat.mul_assoc, ← hhv]
    omega
  have hlt : h / 16 < B.hDim / 16 := by omega
  have hq : (tok * B.hDim + h) % 16 = h % 16 := by
    have hsplit : tok * B.hDim = 16 * (tok * (B.hDim / 16)) := by
      rw [Nat.mul_comm, hhv, Nat.mul_div_cancel _ (by norm_num)]
      ring
    omega
  have hplane : h / 16 * 16 / nFeat = h / nFeat := by
    unfold nFeat
    omega
  have hcol : h / 16 * 16 % nFeat + h % 16 = h % nFeat := by
    unfold nFeat
    omega
  simp only [cellReads, Build.vecWidth]
  rw [hiv, hq, rowMajor_div hlt, rowMajor_mod hlt, hplane, hcol]

/-- Every output element is computed by exactly one thread, once. -/
theorem covers_outProg (h : Launched B a) : Covers (outProg B a) (· < a.outElems B) := by
  have hstep : 0 < a.ncomp B * B.blockSize :=
    Nat.mul_pos (LaunchArgs.ncomp_pos h.ncomm_lt) B.blockSize_pos
  have hmem : ∀ (t : B.Thread) x, x ∈ outProg B a t ↔ (t.1 : ℕ) < a.ncomp B ∧
      ∃ ch < a.nchunk, x / Build.vecWidth ∈ a.computeVecs B ch t := by
    intro t x
    unfold outProg
    split_ifs with ht
    · simp only [List.mem_flatMap, List.mem_range, mem_vecElems, ht, true_and,
        exists_eq_right']
    · simp [ht]
  have hvec : ∀ x, x < a.outElems B ↔ x / Build.vecWidth < a.outVec B := fun x => by
    rw [Nat.div_lt_iff_lt_mul (by norm_num [Build.vecWidth]), outVec_mul]
  -- the chunk of a vector that a compute thread visits
  have hbounds : ∀ {t : B.Thread} {ch iv : ℕ}, (t.1 : ℕ) < a.ncomp B →
      iv ∈ a.computeVecs B ch t → a.vecLo B ch ≤ iv ∧ iv < a.vecLo B (ch + 1) := by
    intro t ch iv ht hiv
    obtain ⟨hlo, hhi, _⟩ := (mem_strided_worker (LaunchArgs.gtid_lt ht)).mp hiv
    exact ⟨hlo, hhi⟩
  have hlt : ∀ {ch iv : ℕ}, ch < a.nchunk → iv < a.vecLo B (ch + 1) → iv < a.outVec B := by
    intro ch iv hch hiv
    have hend : a.vecLo B a.nchunk = a.outVec B := Nat.mul_div_cancel _ h.nchunk_pos
    have hmono : a.vecLo B (ch + 1) ≤ a.vecLo B a.nchunk := LaunchArgs.vecLo_mono hch
    omega
  have hchunk : ∀ {ch ch' iv : ℕ}, ch < a.nchunk → ch' < a.nchunk →
      a.vecLo B ch ≤ iv ∧ iv < a.vecLo B (ch + 1) →
      a.vecLo B ch' ≤ iv ∧ iv < a.vecLo B (ch' + 1) → ch = ch' := by
    intro ch ch' iv hch hch' hiv hiv'
    exact (exists_unique_evenPiece h.nchunk_pos (hlt hch hiv.2)).unique ⟨hch, hiv⟩ ⟨hch', hiv'⟩
  refine ⟨fun t => ?_, fun x hx => ?_, fun t x hx => ?_, fun t t' x hx hx' => ?_⟩
  · unfold outProg
    split_ifs with ht
    · refine List.nodup_flatMap.mpr ⟨fun ch _ => ?_, ?_⟩
      · refine List.nodup_flatMap.mpr ⟨fun iv _ => ?_, ?_⟩
        · exact List.nodup_range.map fun q q' heq => Nat.add_left_cancel heq
        · refine (nodup_strided hstep).imp fun hne x hx hx' => hne ?_
          exact (mem_vecElems.mp hx).symm.trans (mem_vecElems.mp hx')
      · refine List.Nodup.pairwise_of_forall_ne List.nodup_range fun ch hch ch' hch' hne => ?_
        rw [Function.onFun, List.disjoint_left]
        intro x hx hx'
        obtain ⟨iv, hiv, hxiv⟩ := List.mem_flatMap.mp hx
        obtain ⟨iv', hiv', hxiv'⟩ := List.mem_flatMap.mp hx'
        obtain rfl := (mem_vecElems.mp hxiv).symm.trans (mem_vecElems.mp hxiv')
        exact hne (hchunk (List.mem_range.mp hch) (List.mem_range.mp hch') (hbounds ht hiv)
          (hbounds ht hiv'))
    · exact List.nodup_nil
  · obtain ⟨ch, ⟨hch, hlo, hhi⟩, _⟩ := exists_unique_evenPiece h.nchunk_pos ((hvec x).mp hx)
    obtain ⟨t, ⟨ht, hiv⟩, _⟩ := LaunchArgs.exists_unique_vecWriter h.ncomm_lt hlo hhi
    exact ⟨t, (hmem t x).mpr ⟨ht, ch, hch, hiv⟩⟩
  · obtain ⟨ht, ch, hch, hiv⟩ := (hmem t x).mp hx
    exact (hvec x).mpr (hlt hch (hbounds ht hiv).2)
  · obtain ⟨ht, ch, hch, hiv⟩ := (hmem t x).mp hx
    obtain ⟨ht', ch', hch', hiv'⟩ := (hmem t' x).mp hx'
    obtain rfl := hchunk hch hch' (hbounds ht hiv) (hbounds ht' hiv')
    obtain ⟨hlo, hhi⟩ := hbounds ht hiv
    exact (LaunchArgs.exists_unique_vecWriter h.ncomm_lt hlo hhi).unique ⟨ht, hiv⟩ ⟨ht', hiv'⟩

end Reduction

/-! ## A run of all phases -/

/-- One run of phases 1a to 3: an interleaving of each phase, in the order in which the grid
barriers put the phases. -/
structure PipelineRun (B : Build) (a : LaunchArgs) (ids : ℕ → ℤ) where
  count : List (B.Thread × ℕ)
  tiles : List (B.Thread × ℕ × ℕ)
  scatter : List (B.Thread × ScatterOp)
  cells : List (B.Thread × CellOp)
  outs : List (B.Thread × ℕ)
  count_interleaves : Interleaves (countProg B a.numTokens ids) count
  tiles_interleaves : Interleaves (tileProg B (countPhase B ids count)) tiles
  scatter_interleaves : Interleaves (scatterProg B a.numTokens ids) scatter
  cells_interleaves : Interleaves (cellProg B (phase1b B (countPhase B ids count) tiles)) cells
  outs_interleaves : Interleaves (outProg B a) outs

/-- What the buffers that nobody clears hold when the launch starts. -/
structure Leftovers (Y P O : Type*) where
  sorted : ℕ → ℕ
  stage : ℕ → Y
  accum : ℕ → P
  out : ℕ → O

/-- There is room for all tiles of the histogram. -/
lemma Launched.offset_tilesOf_le {B : Build} {a : LaunchArgs} (ha : Launched B a) (ids : ℕ → ℤ) :
    offset (B.tilesOf (slotCount B a.numTokens ids)) B.numExperts ≤ B.maxTiles := by
  have htotal : offset (slotCount B a.numTokens ids) B.numExperts ≤ B.numel a.numTokens :=
    offset_slotCount_le _
  calc offset (B.tilesOf (slotCount B a.numTokens ids)) B.numExperts
    _ ≤ offset (slotCount B a.numTokens ids) B.numExperts / B.blockM + B.numExperts :=
        offset_tiles_le blockM_pos _ _
    _ ≤ B.numel a.numTokens / B.blockM + B.numExperts :=
        Nat.add_le_add_right (Nat.div_le_div_right htotal) _
    _ ≤ B.maxTiles := ha.tiles_le

namespace PipelineRun

variable {B : Build} {a : LaunchArgs} {ids : ℕ → ℤ} {Y W P S O : Type*}

/-- The schedule of the run. -/
def sched (run : PipelineRun B a ids) : Schedule := phase1b B (countPhase B ids run.count) run.tiles

/-- `sorted_token_ids` after the scatter. -/
def sorted (run : PipelineRun B a ids) (old : Leftovers Y P O) : ℕ → ℕ :=
  ((run.scatter.map Prod.snd).foldl (ScatterState.step ids)
    ⟨run.sched.writePtrs, fun _ => 0, old.sorted⟩).sorted

/-- `output_accum` after phase 2. -/
def accum (run : PipelineRun B a ids) (ops : RowOps Y W P S O) (weights : ℕ → W)
    (old : Leftovers Y P O) : ℕ → P :=
  storeAll (cellAddr B a.numTokens run.sched (run.sorted old))
    (cellVal B run.sched (run.sorted old) ops old.stage weights) old.accum (run.cells.map Prod.snd)

/-- The output after phase 3. -/
def out (run : PipelineRun B a ids) (ops : RowOps Y W P S O) (weights : ℕ → W)
    (old : Leftovers Y P O) : ℕ → O :=
  storeAll id (outVal B a ids ops (run.accum ops weights old)) old.out (run.outs.map Prod.snd)

/-- A run finds the schedule in place. -/
lemma scheduled (run : PipelineRun B a ids) :
    Scheduled B (slotCount B a.numTokens ids) run.sched := by
  rw [← countPhase_eq run.count_interleaves]
  exact scheduled_phase1b run.tiles_interleaves

/-- A run finds the slots sorted. -/
lemma isSorted (run : PipelineRun B a ids) (hids : RoutedIds B a.numTokens ids)
    (old : Leftovers Y P O) : Sorted B a.numTokens ids (run.sorted old) :=
  sorted_of_scatter hids (fun e he => run.scheduled.writePtrs e he) run.scatter_interleaves

/-- The tile table is large enough. -/
lemma totalTiles_le (run : PipelineRun B a ids) (ha : Launched B a) :
    run.sched.totalTiles ≤ B.maxTiles :=
  run.scheduled.totalTiles.trans_le (ha.offset_tilesOf_le ids)

/-- The stores of phase 2 that the run performs. -/
lemma mem_cells (run : PipelineRun B a ids) {op : CellOp} :
    op ∈ run.cells.map Prod.snd ↔ ValidCell B run.sched op :=
  covers_cellProg.mem_iff run.cells_interleaves

/-- The stores of the run go to different cells. -/
lemma cells_inj (run : PipelineRun B a ids) (hids : RoutedIds B a.numTokens ids)
    (old : Leftovers Y P O) : ∀ op ∈ run.cells.map Prod.snd, ∀ op' ∈ run.cells.map Prod.snd,
      cellAddr B a.numTokens run.sched (run.sorted old) op =
        cellAddr B a.numTokens run.sched (run.sorted old) op' → op = op' :=
  fun _ hop _ hop' => cellAddr_inj run.scheduled (run.isSorted hids old) (run.mem_cells.mp hop)
    (run.mem_cells.mp hop')

/-- How often the run stores to a cell. -/
def writes (run : PipelineRun B a ids) (old : Leftovers Y P O) (cell : ℕ) : ℕ :=
  (run.cells.map Prod.snd).countP fun op =>
    cellAddr B a.numTokens run.sched (run.sorted old) op = cell

variable (run : PipelineRun B a ids) (hids : RoutedIds B a.numTokens ids)
  (ops : RowOps Y W P S O) (weights : ℕ → W) (old : Leftovers Y P O) {i h : ℕ}

include hids

/-- The cells of an owned pair are written once, with the weighted row. -/
lemma accum_eq (hi : Owned B a.numTokens ids i) (hh : h < B.hDim) :
    run.accum ops weights old (cellIndex B a.numTokens (h / nFeat) i (h % nFeat)) =
        ops.partialOf (ops.f (expertOf ids i) (i / B.topK) h) (weights i) ∧
      run.writes old (cellIndex B a.numTokens (h / nFeat) i (h % nFeat)) = 1 := by
  have hsorted := run.isSorted hids old
  obtain ⟨op, hop, hfi, hgfp, hcol⟩ := exists_validCell hids run.scheduled hsorted hi hh
  have haddr : cellIndex B a.numTokens (h / nFeat) i (h % nFeat) =
      cellAddr B a.numTokens run.sched (run.sorted old) op := by
    rw [cellAddr, hfi, hgfp, hcol]
  have hmem := run.mem_cells.mpr hop
  have hnodup := covers_cellProg.nodup run.cells_interleaves
  have hinj := run.cells_inj hids old
  have hexpert := (hop.owned run.scheduled hsorted).2
  refine ⟨?_, ?_⟩
  · rw [haddr, accum, storeAll_of_mem hnodup hinj hmem, cellVal_eq ops _ _ hop.2.2.2, ← hexpert,
      hfi, hgfp, hcol, Nat.div_add_mod']
  · rw [haddr]
    exact countP_addr_eq_one hnodup hinj hmem

/-- Only cells of owned pairs are written. -/
lemma writes_eq_zero (hi : i < B.numel a.numTokens) (hskip : B.skips (ids i) = true) (gfp : ℕ)
    {col : ℕ} (hcol : col < nFeat) : run.writes old (cellIndex B a.numTokens gfp i col) = 0 := by
  refine List.countP_eq_zero.mpr fun op hop haddr => ?_
  have hvalid := run.mem_cells.mp hop
  have hown := (hvalid.owned run.scheduled (run.isSorted hids old)).1
  obtain ⟨_, hfi, _⟩ := cellIndex_inj hown.1 hi hvalid.2.2.2 hcol (of_decide_eq_true haddr)
  rw [hfi] at hown
  exact Bool.noConfusion (hown.2.symm.trans hskip)

end PipelineRun

section Correctness

variable {B : Build} {Y W P S O : Type*}

/-- What the kernel is for: the partials of the token's slots, summed in slot order. -/
def moeOut (B : Build) (ids : ℕ → ℤ) (ops : RowOps Y W P S O) (weights : ℕ → W) (tok h : ℕ) : O :=
  ops.finish (tok * B.hDim + h) ((ownedSlots B ids tok).foldl (fun s i =>
    ops.add s (ops.partialOf (ops.f (expertOf ids i) tok h) (weights i))) ops.zero)

/-- The output of every run is the sum of the partials in slot order. -/
theorem PipelineRun.out_eq {a : LaunchArgs} {ids : ℕ → ℤ} (run : PipelineRun B a ids)
    (ha : Launched B a) (hids : RoutedIds B a.numTokens ids) (ops : RowOps Y W P S O)
    (weights : ℕ → W) (old : Leftovers Y P O) {tok h : ℕ} (htok : tok < a.numTokens)
    (hh : h < B.hDim) :
    run.out ops weights old (tok * B.hDim + h) = moeOut B ids ops weights tok h := by
  have hx : tok * B.hDim + h < a.outElems B := rowMajor_lt htok hh
  have hcovers := covers_outProg ha
  have hstore : run.out ops weights old (id (tok * B.hDim + h)) =
      outVal B a ids ops (run.accum ops weights old) (tok * B.hDim + h) :=
    storeAll_of_mem (hcovers.nodup run.outs_interleaves) (fun _ _ _ _ heq => heq)
      ((hcovers.mem_iff run.outs_interleaves).mpr hx)
  refine hstore.trans ?_
  unfold outVal moeOut
  rw [cellReads_eq hh, List.foldl_map]
  congr 1
  refine List.foldl_ext _ _ _ fun s i hi => ?_
  obtain ⟨hown, hrow⟩ := (mem_ownedSlots htok).mp hi
  rw [(run.accum_eq hids ops weights old hown hh).1, hrow]

/-- The pipeline computes the sum over a token's slots whatever the interleavings: the output is
the slot-order sum, every cell that phase 3 reads is written exactly once, no cell of a slot routed
elsewhere is read or written, and the tile table is large enough. -/
theorem pipeline_correct {c : LaunchCall} (hc : launcherCheck B c = 0) {ids : ℕ → ℤ}
    (hids : RoutedIds B c.numTokens.toNat ids) (run : PipelineRun B c.phase3Args ids)
    (ops : RowOps Y W P S O) (weights : ℕ → W) (old : Leftovers Y P O) :
    (∀ tok < c.numTokens.toNat, ∀ h < B.hDim,
      run.out ops weights old (tok * B.hDim + h) = moeOut B ids ops weights tok h) ∧
    (∀ x < c.numTokens.toNat * B.hDim, ∀ cell ∈ cellReads B c.phase3Args ids x,
      run.writes old cell = 1) ∧
    (∀ i < B.numel c.numTokens.toNat, B.skips (ids i) = true → ∀ gfp, ∀ col < nFeat,
      run.writes old (cellIndex B c.numTokens.toNat gfp i col) = 0 ∧
        ∀ x < c.numTokens.toNat * B.hDim,
          cellIndex B c.numTokens.toNat gfp i col ∉ cellReads B c.phase3Args ids x) ∧
    run.sched.totalTiles ≤ B.maxTiles := by
  have ha := Launched.of_launcherCheck hc
  -- the token and the column of an output element
  have hsplit : ∀ x < c.numTokens.toNat * B.hDim, ∃ tok h, tok < c.numTokens.toNat ∧
      h < B.hDim ∧ x = tok * B.hDim + h := fun x hx =>
    ⟨x / B.hDim, x % B.hDim, (Nat.div_lt_iff_lt_mul B.hDim_pos).mpr hx, Nat.mod_lt _ B.hDim_pos,
      (Nat.div_add_mod' x B.hDim).symm⟩
  refine ⟨fun tok htok h hh => run.out_eq ha hids ops weights old htok hh,
    fun x hx cell hcell => ?_,
    fun i hi hskip gfp col hcol => ⟨run.writes_eq_zero hids old hi hskip gfp hcol,
      fun x hx hcell => ?_⟩, ?_⟩
  · obtain ⟨tok, h, htok, hh, rfl⟩ := hsplit x hx
    rw [cellReads_eq hh] at hcell
    obtain ⟨i, hi, rfl⟩ := List.mem_map.mp hcell
    have hown := ((mem_ownedSlots (a := c.phase3Args) htok).mp hi).1
    exact (run.accum_eq hids ops weights old hown hh).2
  · obtain ⟨tok, h, htok, hh, rfl⟩ := hsplit x hx
    rw [cellReads_eq hh] at hcell
    obtain ⟨j, hj, heq⟩ := List.mem_map.mp hcell
    have hown := ((mem_ownedSlots (a := c.phase3Args) htok).mp hj).1
    obtain ⟨_, rfl, _⟩ := cellIndex_inj hown.1 hi (Nat.mod_lt _ (by norm_num [nFeat])) hcol heq
    exact Bool.noConfusion (hown.2.symm.trans hskip)
  · exact run.totalTiles_le ha

/-- The threads of the grid. -/
def Build.threads (B : Build) : List B.Thread :=
  List.finRange B.gridSize ×ˢ List.finRange B.blockSize

/-- One thread after the other is an order of all threads. -/
lemma interleaves_threads {ι : Type*} (prog : B.Thread → List ι) :
    Interleaves prog (serial B.threads prog) :=
  interleaves_serial ((List.nodup_finRange _).product (List.nodup_finRange _)) fun t =>
    List.mem_product.mpr ⟨List.mem_finRange t.1, List.mem_finRange t.2⟩

/-- The run in which the threads take turns, each finishing its phase before the next starts. -/
def PipelineRun.serial (B : Build) (a : LaunchArgs) (ids : ℕ → ℤ) : PipelineRun B a ids where
  count := Interleaving.serial B.threads _
  tiles := Interleaving.serial B.threads _
  scatter := Interleaving.serial B.threads _
  cells := Interleaving.serial B.threads _
  outs := Interleaving.serial B.threads _
  count_interleaves := interleaves_threads _
  tiles_interleaves := interleaves_threads _
  scatter_interleaves := interleaves_threads _
  cells_interleaves := interleaves_threads _
  outs_interleaves := interleaves_threads _

/-- A launch of the expert-parallel build on three tokens, without the fused epilogue. -/
def threeTokens : LaunchCall where
  workspace := true
  workspaceBytes := true
  numTokens := 3
  operands := true
  tpMc := false
  tpPads := false
  tpRank := 0
  tpWorld := 1
  tpNchunk := 1
  tpNcomm := 0
  expertMap := true

/-- Every token's first two slots are local, the others belong to other ranks. -/
def twoLocalSlots (i : ℕ) : ℤ := if i % 8 < 2 then (i % 8 : ℕ) else -1

/-- The sample ids are routed. -/
lemma routedIds_twoLocalSlots :
    RoutedIds qwenEP threeTokens.numTokens.toNat twoLocalSlots := by
  intro i _
  unfold twoLocalSlots
  split_ifs with hi
  · exact Or.inl ⟨Int.natCast_nonneg _, Int.ofNat_lt.mpr (show i % 8 < 64 by omega)⟩
  · exact Or.inr ⟨rfl, by norm_num⟩

/-- Integer arithmetic in which expert `e` maps token `tok` to `10 * e + tok` plus the column. -/
def intOps : RowOps ℤ ℤ ℤ ℤ ℤ where
  f e tok h := 10 * e + tok + h
  partialOf y w := y * w
  zero := 0
  add s p := s + p
  finish _ s := s

/-- Column `5` of token `1` in a serial run on leftover memory full of ones. -/
theorem pipeline_correct_threeTokens :
    (PipelineRun.serial qwenEP threeTokens.phase3Args twoLocalSlots).out intOps (fun i => i)
      ⟨fun _ => 1, fun _ => 1, fun _ => 1, fun _ => 1⟩ (1 * qwenEP.hDim + 5) = 6 * 8 + 16 * 9 := by
  exact (pipeline_correct (by decide) routedIds_twoLocalSlots _ intOps _ _).1 1 (by decide) 5
    (by decide)

end Correctness

end UnimonoMoe
