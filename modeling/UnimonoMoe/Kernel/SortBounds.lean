import UnimonoMoe.Kernel.Pipeline
import Mathlib.Algebra.Order.Floor.Div
import Mathlib.Data.List.Perm.Basic

/-!
# The counting sort as a whole

What phases 1a, 1b and 1c leave behind, in terms of the workspace itself: the scans are the
exclusive prefix sums (`scan_exact`), the region of an expert in `sorted_token_ids` is a
permutation of its pairs (`region_perm`), and the tiles partition the regions (`tiles_exact`).

`PipelineRun.Accesses` lists the array accesses of a run, one constructor for each access of the
source, and `PipelineRun.Value` the `int` values it computes.  For every number of tokens that
passes the launcher's checks the accesses stay inside the arrays (`access_lt`), and no value
reaches `2 ^ 31` (`value_lt`); both rest on the `MAX_TILES` check alone.
-/

namespace UnimonoMoe

open Loops Interleaving PrefixSum

/-! ## The accesses and the values of a run -/

/-- The arrays of the sort. -/
inductive SortArray
  | topkIds
  | expertCounts
  | expertOffsets
  | writePtrs
  | sc
  | st
  | tileExpert
  | tileRowStart
  | sortedTokenIds
deriving DecidableEq, Repr

/-- The number of elements of an array. -/
def SortArray.length (B : Build) (numTokens : ℕ) : SortArray → ℕ
  | .topkIds | .sortedTokenIds => B.numel numTokens
  | .expertCounts | .writePtrs | .sc | .st => B.numExperts
  | .expertOffsets => B.numExperts + 1
  | .tileExpert | .tileRowStart => B.maxTiles

namespace PipelineRun

variable {B : Build} {a : LaunchArgs} {ids : ℕ → ℤ} {Y P O : Type*}

/-- `expert_counts` after phase 1a. -/
def counts (run : PipelineRun B a ids) : ℕ → ℕ := countPhase B ids run.count

/-- The state of the scatter after the operations `pre`. -/
def scatterState (run : PipelineRun B a ids) (old : Leftovers Y P O) (pre : List ScatterOp) :
    ScatterState :=
  pre.foldl (ScatterState.step ids) ⟨run.sched.writePtrs, fun _ => 0, old.sorted⟩

/-- Element `i` of an array is accessed in the run. -/
inductive Accesses (run : PipelineRun B a ids) (old : Leftovers Y P O) : SortArray → ℕ → Prop
  /-- phase 1a: `topk_ids[tok * TOP_K + kp]` and `atomicAdd(&ws->expert_counts[id], 1)` -/
  | countedId {t : B.Thread} {i : ℕ} (h : i ∈ countProg B a.numTokens ids t) :
      Accesses run old .topkIds i
  | histogram {t : B.Thread} {i : ℕ} (h : i ∈ countProg B a.numTokens ids t) :
      Accesses run old .expertCounts (expertOf ids i)
  /-- phase 1b: `ws->expert_counts[e]` -/
  | count (e : Fin B.blockSize) : Accesses run old .expertCounts e
  /-- `sc[e]`, `st[e]` and, at stride `d`, `sc[e - d]`, `st[e - d]` -/
  | sc {e : Fin B.blockSize} {d : ℕ} (h : d ≤ e) : Accesses run old .sc (e - d)
  | st {e : Fin B.blockSize} {d : ℕ} (h : d ≤ e) : Accesses run old .st (e - d)
  /-- `ws->expert_offsets[e]`, `ws->write_ptrs[e]` and `ws->expert_offsets[NUM_EXPERTS]` -/
  | offset (e : Fin B.blockSize) : Accesses run old .expertOffsets e
  | writePtr (e : Fin B.blockSize) : Accesses run old .writePtrs e
  | lastOffset : Accesses run old .expertOffsets B.numExperts
  /-- `ws->tile_expert[tbase + i]` and `ws->tile_row_start[tbase + i]` -/
  | tile {t : B.Thread} {p : ℕ × ℕ} (h : p ∈ tileProg B run.counts t) :
      Accesses run old .tileExpert (B.tbaseOf run.counts p.1 + p.2)
  | rowStart {t : B.Thread} {p : ℕ × ℕ} (h : p ∈ tileProg B run.counts t) :
      Accesses run old .tileRowStart (B.tbaseOf run.counts p.1 + p.2)
  /-- phase 1c: `topk_ids[i]` -/
  | scatteredId {t : B.Thread} {i : ℕ} (h : i ∈ strided (LaunchArgs.gtid B t)
      (B.numel a.numTokens) (B.gridSize * B.blockSize)) : Accesses run old .topkIds i
  /-- `atomicAdd(&ws->write_ptrs[e], 1)` -/
  | claim {i : ℕ} (h : .claim i ∈ run.scatter.map Prod.snd) :
      Accesses run old .writePtrs (expertOf ids i)
  /-- `sorted_token_ids[pos]` -/
  | put {pre suf : List ScatterOp} {i : ℕ}
      (h : run.scatter.map Prod.snd = pre ++ .put i :: suf) :
      Accesses run old .sortedTokenIds ((run.scatterState old pre).pos i)
  /-- phase 2: `ws->tile_expert[tile]` and `ws->tile_row_start[tile]` -/
  | takenTile {b : Fin B.gridSize} {tile : ℕ}
      (h : tile ∈ strided b run.sched.totalTiles B.gridSize) : Accesses run old .tileExpert tile
  | takenRow {b : Fin B.gridSize} {tile : ℕ}
      (h : tile ∈ strided b run.sched.totalTiles B.gridSize) : Accesses run old .tileRowStart tile
  /-- `ws->expert_offsets[e + 1]` -/
  | rowEnd {b : Fin B.gridSize} {tile : ℕ}
      (h : tile ∈ strided b run.sched.totalTiles B.gridSize) :
      Accesses run old .expertOffsets (run.sched.tileExpert tile + 1)
  /-- `sorted_token_ids[row0 + m]` -/
  | row {b : Fin B.gridSize} {tile m : ℕ}
      (h : tile ∈ strided b run.sched.totalTiles B.gridSize) (hm : m < tileRows B run.sched tile) :
      Accesses run old .sortedTokenIds (run.sched.tileRowStart tile + m)

/-- An `int` value that the run computes. -/
inductive Value (run : PipelineRun B a ids) (old : Leftovers Y P O) : ℕ → Prop
  /-- `numel`, `gtid` and `gstride` -/
  | numel : Value run old (B.numel a.numTokens)
  | gtid (t : B.Thread) : Value run old (LaunchArgs.gtid B t)
  | gstride : Value run old (B.gridSize * B.blockSize)
  /-- `expert_counts[e]` after some of the increments -/
  | count {pre suf : List (B.Thread × ℕ)} (h : run.count = pre ++ suf) {e : ℕ}
      (he : e < B.numExperts) : Value run old (countPhase B ids pre e)
  /-- `cnt + block_m` and `tiles_e` -/
  | roundUp {e : ℕ} (he : e < B.numExperts) : Value run old (run.counts e + B.blockM)
  | tiles {e : ℕ} (he : e < B.numExperts) : Value run old (B.tilesOf run.counts e)
  /-- `sc[e]` and `st[e]` after `k` rounds of the scan -/
  | sc (k : ℕ) {e : ℕ} (he : e < B.numExperts) : Value run old (scanRounds run.counts k e)
  | st (k : ℕ) {e : ℕ} (he : e < B.numExperts) :
      Value run old (scanRounds (B.tilesOf run.counts) k e)
  /-- `off_e` and, for the last expert, `off_e + cnt` -/
  | offset {e : ℕ} (he : e ≤ B.numExperts) : Value run old (run.sched.offsets e)
  /-- `tbase`, `tbase + tiles_e` and `tbase + i` -/
  | tbase {e : ℕ} (he : e < B.numExperts) : Value run old (B.tbaseOf run.counts e)
  | totalTiles : Value run old run.sched.totalTiles
  | tileIndex {t : B.Thread} {p : ℕ × ℕ} (h : p ∈ tileProg B run.counts t) :
      Value run old (B.tbaseOf run.counts p.1 + p.2)
  /-- `i * block_m` and `off_e + i * block_m` -/
  | tileOffset {t : B.Thread} {p : ℕ × ℕ} (h : p ∈ tileProg B run.counts t) :
      Value run old (p.2 * B.blockM)
  | tileStart {t : B.Thread} {p : ℕ × ℕ} (h : p ∈ tileProg B run.counts t) :
      Value run old (B.offOf run.counts p.1 + p.2 * B.blockM)
  /-- `i += gstride` -/
  | nextPair {t : B.Thread} {i : ℕ} (h : i ∈ strided (LaunchArgs.gtid B t)
      (B.numel a.numTokens) (B.gridSize * B.blockSize)) :
      Value run old (i + B.gridSize * B.blockSize)
  /-- `write_ptrs[e]` after some of the operations -/
  | writePtr {pre suf : List ScatterOp} (h : run.scatter.map Prod.snd = pre ++ suf) {e : ℕ}
      (he : e < B.numExperts) : Value run old ((run.scatterState old pre).writePtrs e)
  /-- `tile += GRID` -/
  | nextTile {b : Fin B.gridSize} {tile : ℕ}
      (h : tile ∈ strided b run.sched.totalTiles B.gridSize) : Value run old (tile + B.gridSize)
  /-- `rows` and `row0 + m` -/
  | rows {tile : ℕ} (h : tile < run.sched.totalTiles) : Value run old (tileRows B run.sched tile)
  | row {tile m : ℕ} (h : tile < run.sched.totalTiles) (hm : m < tileRows B run.sched tile) :
      Value run old (run.sched.tileRowStart tile + m)

/-- A run finds the slots counted. -/
lemma counts_eq (run : PipelineRun B a ids) : run.counts = slotCount B a.numTokens ids :=
  countPhase_eq run.count_interleaves

end PipelineRun

/-! ## The result of the sort -/

section Result

variable {B : Build} {a : LaunchArgs} {ids : ℕ → ℤ} {Y P O : Type*}

/-- The scans of phase 1b are the exclusive prefix sums of the expert counts and of the rounded-up
tile counts. -/
theorem scan_exact (run : PipelineRun B a ids) {e : ℕ} (he : e < B.numExperts) :
    B.offOf run.counts e = ∑ j ∈ Finset.range e, slotCount B a.numTokens ids j ∧
      B.tbaseOf run.counts e =
        ∑ j ∈ Finset.range e, slotCount B a.numTokens ids j ⌈/⌉ B.blockM := by
  rw [run.counts_eq]
  refine ⟨offOf_eq he, (tbaseOf_eq he).trans ?_⟩
  refine Finset.sum_congr rfl fun j _ => ?_
  rw [Nat.ceilDiv_eq_add_pred_div]
  rfl

/-- The region of an expert is where its offset and the next say. -/
lemma inRegion_iff (run : PipelineRun B a ids) {e x : ℕ} (he : e < B.numExperts) :
    run.sched.offsets e ≤ x ∧ x < run.sched.offsets (e + 1) ↔
      InRegion (slotCount B a.numTokens ids) e x := by
  rw [run.scheduled.offsets e he.le, run.scheduled.offsets (e + 1) he, offset_succ]
  rfl

/-- The region of an expert in `sorted_token_ids` is a permutation of the pairs routed to it. -/
theorem region_perm (hids : RoutedIds B a.numTokens ids) (run : PipelineRun B a ids)
    (old : Leftovers Y P O) {e : ℕ} (he : e < B.numExperts) :
    ((List.range' (run.sched.offsets e)
        (run.sched.offsets (e + 1) - run.sched.offsets e)).map (run.sorted old)).Perm
      ((List.range (B.numel a.numTokens)).filter fun i =>
        Owned B a.numTokens ids i ∧ expertOf ids i = e) := by
  have hsorted := run.isSorted hids old
  have hplace : ∀ x, x ∈ List.range' (run.sched.offsets e)
      (run.sched.offsets (e + 1) - run.sched.offsets e) ↔
        InRegion (slotCount B a.numTokens ids) e x := by
    intro x
    have hle : run.sched.offsets e ≤ run.sched.offsets (e + 1) := by
      rw [run.scheduled.offsets e he.le, run.scheduled.offsets (e + 1) he]
      exact offset_mono (Nat.le_succ e)
    rw [List.mem_range'_1, Nat.add_sub_cancel' hle, inRegion_iff run he]
  refine (List.perm_ext_iff_of_nodup ?_ (List.nodup_range.filter _)).mpr fun i => ?_
  · refine List.Nodup.map_on (fun x hx y hy heq => ?_) List.nodup_range'
    exact hsorted.inj x y (((hplace x).mp hx).lt_total he) (((hplace y).mp hy).lt_total he) heq
  · rw [List.mem_map, List.mem_filter, List.mem_range, decide_eq_true_eq]
    constructor
    · rintro ⟨x, hx, rfl⟩
      obtain ⟨hown, hexpert⟩ := hsorted.owned e x he ((hplace x).mp hx)
      exact ⟨hown.1, hown, hexpert⟩
    · rintro ⟨_, hown, rfl⟩
      obtain ⟨x, hx, hi⟩ := hsorted.place i hown
      exact ⟨x, (hplace x).mpr hx, hi⟩

/-- `p.2` is a row of tile `p.1`. -/
def IsTileRow (B : Build) (S : Schedule) (p : ℕ × ℕ) : Prop :=
  p.1 < S.totalTiles ∧ p.2 < tileRows B S p.1

/-- What phase 2 finds in the schedule: every tile lies in the region of one expert and has
between one and `BLOCK_M` rows, is taken by exactly one block, every place of a region is a row of
exactly one tile, and so is every owned pair, in a tile of its expert. -/
structure TilesExact (B : Build) (numTokens : ℕ) (ids : ℕ → ℤ) (S : Schedule)
    (sorted : ℕ → ℕ) : Prop where
  expert : ∀ tile < S.totalTiles, S.tileExpert tile < B.numExperts
  rows : ∀ tile < S.totalTiles, 1 ≤ tileRows B S tile ∧ tileRows B S tile ≤ B.blockM
  within : ∀ p, IsTileRow B S p → S.offsets (S.tileExpert p.1) ≤ S.tileRowStart p.1 + p.2 ∧
    S.tileRowStart p.1 + p.2 < S.offsets (S.tileExpert p.1 + 1)
  taken : ∀ tile < S.totalTiles, ∃! b : Fin B.gridSize,
    tile ∈ strided b S.totalTiles B.gridSize
  nodup : ∀ b : Fin B.gridSize, (strided b S.totalTiles B.gridSize).Nodup
  place : ∀ e < B.numExperts, ∀ x, S.offsets e ≤ x → x < S.offsets (e + 1) →
    ∃! p : ℕ × ℕ, IsTileRow B S p ∧ S.tileRowStart p.1 + p.2 = x
  pair : ∀ i, Owned B numTokens ids i →
    ∃! p : ℕ × ℕ, IsTileRow B S p ∧ rowFi S sorted p.1 p.2 = i
  pair_expert : ∀ p, IsTileRow B S p → S.tileExpert p.1 = expertOf ids (rowFi S sorted p.1 p.2)

/-- The tiles of phase 2 partition the regions. -/
theorem tiles_exact (hids : RoutedIds B a.numTokens ids) (run : PipelineRun B a ids)
    (old : Leftovers Y P O) : TilesExact B a.numTokens ids run.sched (run.sorted old) := by
  have hsched := run.scheduled
  have hsorted := run.isSorted hids old
  have hunique : ∀ x, ∀ p : ℕ × ℕ, IsTileRow B run.sched p →
      run.sched.tileRowStart p.1 + p.2 = x → ∀ q : ℕ × ℕ, IsTileRow B run.sched q →
        run.sched.tileRowStart q.1 + q.2 = x → q = p := by
    intro x p hp hpx q hq hqx
    obtain ⟨htile, hrow⟩ := hsched.row_inj hq.1 hp.1 hq.2 hp.2 (hqx.trans hpx.symm)
    exact Prod.ext htile hrow
  refine ⟨fun tile htile => ?_, fun tile htile => ?_, fun p hp => ?_, fun tile htile => ?_,
    fun b => nodup_strided B.gridSize_pos, fun e he x hlo hhi => ?_, fun i hi => ?_,
    fun p hp => ?_⟩
  · obtain ⟨e, i, he, _, rfl, _⟩ := hsched.tile_decode htile
    exact he
  · obtain ⟨e, i, _, hlt, _, _, hrows, _⟩ := hsched.tile_decode htile
    have hpos := blockM_pos (B := B)
    rw [hrows]
    exact ⟨by omega, Nat.min_le_left _ _⟩
  · obtain ⟨he, hregion⟩ := hsched.row_inRegion hp.1 hp.2
    exact (inRegion_iff run he).mpr hregion
  · have hworker : ∀ b : Fin B.gridSize, tile ∈ strided b run.sched.totalTiles B.gridSize ↔
        tile % B.gridSize = b := by
      intro b
      have h : tile ∈ strided (0 + (b : ℕ)) run.sched.totalTiles B.gridSize ↔ _ :=
        mem_strided_worker b.isLt
      rw [Nat.zero_add, Nat.sub_zero] at h
      rw [h]
      exact ⟨fun hmem => hmem.2.2, fun hmod => ⟨Nat.zero_le _, htile, hmod⟩⟩
    refine ⟨⟨tile % B.gridSize, Nat.mod_lt _ B.gridSize_pos⟩, (hworker _).mpr rfl, ?_⟩
    exact fun b hb => Fin.ext ((hworker b).mp hb).symm
  · obtain ⟨tile, m, htile, hm, _, hx⟩ :=
      hsched.exists_row he ((inRegion_iff run he).mp ⟨hlo, hhi⟩)
    exact ⟨(tile, m), ⟨⟨htile, hm⟩, hx⟩, fun q hq => hunique x _ ⟨htile, hm⟩ hx q hq.1 hq.2⟩
  · obtain ⟨x, hx, rfl⟩ := hsorted.place i hi
    have he : expertOf ids (run.sorted old x) < B.numExperts :=
      (hi.expertOf_lt hids).trans_le B.eLocal_le
    obtain ⟨tile, m, htile, hm, _, rfl⟩ := hsched.exists_row he hx
    refine ⟨(tile, m), ⟨⟨htile, hm⟩, rfl⟩, fun q hq => ?_⟩
    obtain ⟨he', hx'⟩ := hsched.row_inRegion hq.1.1 hq.1.2
    refine hunique _ _ ⟨htile, hm⟩ rfl q hq.1 ?_
    exact hsorted.inj _ _ (hx'.lt_total he') (hx.lt_total he) hq.2
  · obtain ⟨he, hregion⟩ := hsched.row_inRegion hp.1 hp.2
    exact ((hsorted.owned _ _ he hregion).2).symm

end Result

/-! ## Bounds -/

section Bounds

variable {B : Build} {a : LaunchArgs} {ids : ℕ → ℤ} {Y P O : Type*}

/-- A tile that a block takes is in the schedule. -/
lemma lt_totalTiles {run : PipelineRun B a ids} {b : Fin B.gridSize} {tile : ℕ}
    (h : tile ∈ strided b run.sched.totalTiles B.gridSize) : tile < run.sched.totalTiles := by
  have hworker : tile ∈ strided (0 + (b : ℕ)) run.sched.totalTiles B.gridSize ↔ _ :=
    mem_strided_worker b.isLt
  rw [Nat.zero_add] at hworker
  exact (hworker.mp h).2.1

/-- A pair that a thread takes is one of the pairs there are. -/
lemma lt_numel {t : B.Thread} {i : ℕ} (h : i ∈ strided (LaunchArgs.gtid B t)
    (B.numel a.numTokens) (B.gridSize * B.blockSize)) : i < B.numel a.numTokens := by
  have hworker : i ∈ strided (0 + LaunchArgs.gtid B t) (B.numel a.numTokens) _ ↔ _ :=
    mem_strided_worker (rowMajor_lt t.1.isLt t.2.isLt)
  rw [Nat.zero_add] at hworker
  exact (hworker.mp h).2.1

/-- A tile that a thread of block 0 writes is in the schedule. -/
lemma tile_lt {run : PipelineRun B a ids} {t : B.Thread} {p : ℕ × ℕ}
    (h : p ∈ tileProg B run.counts t) :
    p.1 < B.numExperts ∧ p.2 < B.tilesOf run.counts p.1 ∧
      B.tbaseOf run.counts p.1 + p.2 < run.sched.totalTiles := by
  obtain ⟨he, hi⟩ := covers_tileProg.sound t p h
  have hregion : InRegion (B.tilesOf run.counts) p.1 (offset (B.tilesOf run.counts) p.1 + p.2) :=
    ⟨Nat.le_add_right _ _, Nat.add_lt_add_left hi _⟩
  refine ⟨he, hi, ?_⟩
  rw [tbaseOf_eq he, run.scheduled.totalTiles, ← run.counts_eq]
  exact hregion.lt_total he

/-- A thread of block 0 has an expert. -/
lemma expert_lt (e : Fin B.blockSize) : (e : ℕ) < B.numExperts :=
  lt_of_lt_of_eq e.isLt B.blockSize_eq

/-- A place of a region is an index of `sorted_token_ids`. -/
lemma place_lt_numel {e x : ℕ} (he : e < B.numExperts)
    (hx : InRegion (slotCount B a.numTokens ids) e x) : x < B.numel a.numTokens :=
  (hx.lt_total he).trans_le (offset_slotCount_le _)

/-- The invariant of the scatter after a prefix of the run. -/
lemma PipelineRun.scatterInv (hids : RoutedIds B a.numTokens ids) (run : PipelineRun B a ids)
    (old : Leftovers Y P O) {pre suf : List ScatterOp}
    (h : run.scatter.map Prod.snd = pre ++ suf) :
    ScatterInv B ids (slotCount B a.numTokens ids) pre (run.scatterState old pre) := by
  have hops := scatterOrder_of_interleaves run.scatter_interleaves
  rw [h] at hops
  exact UnimonoMoe.scatterInv hids (fun e he => run.scheduled.writePtrs e he) hops

/-- Every access of a run stays inside its array. -/
theorem access_lt (ha : Launched B a) (hids : RoutedIds B a.numTokens ids)
    (run : PipelineRun B a ids) (old : Leftovers Y P O) {array : SortArray} {i : ℕ}
    (h : run.Accesses old array i) : i < array.length B a.numTokens := by
  have htiles := run.totalTiles_le ha
  have hops := scatterOrder_of_interleaves run.scatter_interleaves
  cases h with
  | countedId h => exact (covers_countProg.sound _ _ h).1
  | histogram h => exact ((covers_countProg.sound _ _ h).expertOf_lt hids).trans_le B.eLocal_le
  | count e => exact expert_lt e
  | @sc e d h => exact (Nat.sub_le _ d).trans_lt (expert_lt e)
  | @st e d h => exact (Nat.sub_le _ d).trans_lt (expert_lt e)
  | offset e => exact (expert_lt e).trans (Nat.lt_succ_self _)
  | writePtr e => exact expert_lt e
  | lastOffset => exact Nat.lt_succ_self _
  | tile h => exact (tile_lt h).2.2.trans_le htiles
  | rowStart h => exact (tile_lt h).2.2.trans_le htiles
  | scatteredId h => exact lt_numel h
  | claim h => exact (((hops.mem_iff _).mp h).expertOf_lt hids).trans_le B.eLocal_le
  | @put pre suf i h =>
    have hinv := run.scatterInv hids old h
    rw [h] at hops
    have hclaim := hops.claim_first pre i suf rfl
    have hown := (hops.mem_iff (.put i)).mp (by simp)
    exact place_lt_numel ((hown.expertOf_lt hids).trans_le B.eLocal_le)
      (hinv.inRegion hops hids hclaim)
  | takenTile h => exact (lt_totalTiles h).trans_le htiles
  | takenRow h => exact (lt_totalTiles h).trans_le htiles
  | @rowEnd b tile h =>
    obtain ⟨e, _, he, _, rfl, _⟩ := run.scheduled.tile_decode (lt_totalTiles h)
    exact Nat.succ_lt_succ he
  | @row b tile m h hm =>
    obtain ⟨he, hregion⟩ := run.scheduled.row_inRegion (lt_totalTiles h) hm
    exact place_lt_numel he hregion

/-- The `MAX_TILES` check bounds the number of pairs. -/
lemma numel_le (hB : B.Shipped) (ha : Launched B a) : B.numel a.numTokens < 2 ^ 22 := by
  have hle := ha.tiles_le
  rw [hB.maxTiles_eq, B.numExperts_eq, B.blockM_eq] at hle
  omega

/-- The histogram only grows. -/
lemma countPhase_prefix_le {pre suf : List (B.Thread × ℕ)} (e : ℕ) :
    countPhase B ids pre e ≤ countPhase B ids (pre ++ suf) e := by
  rw [countPhase_eq_countP, countPhase_eq_countP, List.map_append, List.countP_append]
  exact Nat.le_add_right _ _

/-- No `int` of a run overflows. -/
theorem value_lt (hB : B.Shipped) (ha : Launched B a) (hids : RoutedIds B a.numTokens ids)
    (run : PipelineRun B a ids) (old : Leftovers Y P O) {x : ℕ} (h : run.Value old x) :
    x < 2 ^ 31 := by
  have hnumel := numel_le hB ha
  have htiles : run.sched.totalTiles ≤ 32768 := hB.maxTiles_eq ▸ run.totalTiles_le ha
  have hgrid : B.gridSize * B.blockSize = 33792 := by
    rw [hB.gridSize_eq, blockSize_eq_256]
  have hblockM := B.blockM_eq
  have htotal : ∀ e, e ≤ B.numExperts → offset run.counts e ≤ B.numel a.numTokens := by
    intro e _
    rw [run.counts_eq]
    exact offset_slotCount_le e
  have hcount : ∀ e, e < B.numExperts → run.counts e ≤ B.numel a.numTokens := by
    intro e he
    have hle := htotal (e + 1) he
    rw [offset_succ] at hle
    omega
  have htileTotal : ∀ e, e < B.numExperts →
      offset (B.tilesOf run.counts) (e + 1) ≤ run.sched.totalTiles := by
    intro e he
    rw [run.scheduled.totalTiles, ← run.counts_eq]
    exact offset_mono he
  cases h with
  | numel => omega
  | gtid t =>
    have hlt : LaunchArgs.gtid B t < B.gridSize * B.blockSize := rowMajor_lt t.1.isLt t.2.isLt
    omega
  | gstride => omega
  | @count pre suf h e he =>
    have hle : countPhase B ids pre e ≤ countPhase B ids (pre ++ suf) e :=
      countPhase_prefix_le e
    rw [← h] at hle
    have := hcount e he
    unfold PipelineRun.counts at this
    omega
  | @roundUp e he =>
    have := hcount e he
    omega
  | @tiles e he =>
    have hle := htileTotal e he
    rw [offset_succ] at hle
    omega
  | @sc k e he =>
    have hle := scanRounds_le run.counts k e
    have := htotal (e + 1) he
    omega
  | @st k e he =>
    have hle := scanRounds_le (B.tilesOf run.counts) k e
    have := htileTotal e he
    omega
  | @offset e he =>
    rw [run.scheduled.offsets e he, ← run.counts_eq]
    have := htotal e he
    omega
  | @tbase e he =>
    rw [tbaseOf_eq he]
    have hle := htileTotal e he
    rw [offset_succ] at hle
    omega
  | totalTiles => omega
  | tileIndex h =>
    have := (tile_lt h).2.2
    omega
  | @tileOffset t p h =>
    obtain ⟨he, hi, _⟩ := tile_lt h
    have hlt : p.2 * B.blockM < run.counts p.1 := mul_lt_of_lt_tiles blockM_pos hi
    have := hcount p.1 he
    omega
  | @tileStart t p h =>
    obtain ⟨he, hi, _⟩ := tile_lt h
    have hlt : p.2 * B.blockM < run.counts p.1 := mul_lt_of_lt_tiles blockM_pos hi
    have hle := htotal (p.1 + 1) he
    rw [offset_succ] at hle
    rw [offOf_eq he]
    omega
  | nextPair h =>
    have := lt_numel h
    omega
  | @writePtr pre suf h e he =>
    have hops := scatterOrder_of_interleaves run.scatter_interleaves
    rw [h] at hops
    have hle := htotal (e + 1) he
    rw [offset_succ, run.counts_eq] at hle
    rw [(run.scatterInv hids old h).ptr e he]
    have := hops.countP_prefix_le e
    omega
  | nextTile h =>
    have := lt_totalTiles h
    have := hB.gridSize_eq
    omega
  | @rows tile h =>
    have hle : tileRows B run.sched tile ≤ B.blockM := Nat.min_le_left _ _
    omega
  | @row tile m h hm =>
    obtain ⟨he, hx⟩ := run.scheduled.row_inRegion h hm
    have := place_lt_numel he hx
    omega

/-- The counting sort and its tile schedule are exact.  For every number of tokens the launcher
admits, every array of ids in range (or negative in the expert-parallel build) and every order of
the atomics: the scans are the exclusive prefix sums, every region is a permutation of the pairs of
its expert, the tiles partition the regions, all accesses stay inside the arrays and no `int`
overflows. -/
theorem counting_sort_exact (hB : B.Shipped) {call : LaunchCall} (hcall : launcherCheck B call = 0)
    (hids : RoutedIds B call.numTokens.toNat ids) (run : PipelineRun B call.phase3Args ids)
    (old : Leftovers Y P O) :
    (∀ e < B.numExperts,
      B.offOf run.counts e = ∑ j ∈ Finset.range e, slotCount B call.numTokens.toNat ids j ∧
        B.tbaseOf run.counts e =
          ∑ j ∈ Finset.range e, slotCount B call.numTokens.toNat ids j ⌈/⌉ B.blockM) ∧
    (∀ e < B.numExperts,
      ((List.range' (run.sched.offsets e)
          (run.sched.offsets (e + 1) - run.sched.offsets e)).map (run.sorted old)).Perm
        ((List.range (B.numel call.numTokens.toNat)).filter fun i =>
          Owned B call.numTokens.toNat ids i ∧ expertOf ids i = e)) ∧
    TilesExact B call.numTokens.toNat ids run.sched (run.sorted old) ∧
    (∀ array i, run.Accesses old array i → i < array.length B call.numTokens.toNat) ∧
    (∀ x, run.Value old x → x < 2 ^ 31) := by
  have ha := Launched.of_launcherCheck hcall
  exact ⟨fun e he => scan_exact run he, fun e he => region_perm hids run old he,
    tiles_exact hids run old, fun _ _ h => access_lt ha hids run old h,
    fun _ h => value_lt hB ha hids run old h⟩

/-- The region of the second expert after a serial run on three tokens holds the second slot of
each. -/
theorem counting_sort_exact_threeTokens :
    ((List.range' ((PipelineRun.serial qwenEP threeTokens.phase3Args twoLocalSlots).sched.offsets 1)
        ((PipelineRun.serial qwenEP threeTokens.phase3Args twoLocalSlots).sched.offsets (1 + 1) -
          (PipelineRun.serial qwenEP threeTokens.phase3Args twoLocalSlots).sched.offsets 1)).map
      ((PipelineRun.serial qwenEP threeTokens.phase3Args twoLocalSlots).sorted
        (⟨fun _ => 1, fun _ => 1, fun _ => 1, fun _ => 1⟩ : Leftovers ℤ ℤ ℤ))).Perm [1, 9, 17] :=
  (counting_sort_exact (Or.inr (Or.inr rfl)) (by decide) routedIds_twoLocalSlots _ _).2.1 1
    (by decide)

end Bounds

end UnimonoMoe
