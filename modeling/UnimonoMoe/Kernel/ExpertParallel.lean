import Mathlib.Algebra.BigOperators.Ring.Finset
import Mathlib.Algebra.Order.Ring.Rat
import UnimonoMoe.Kernel.Pipeline
import UnimonoMoe.Kernel.Router

/-!
# Expert parallelism

Every rank routes over all experts and then maps the global ids to its own slabs; what belongs to
another rank becomes `-1`.  `ExpertPartition` says that the maps of the ranks split the experts.

`expert_parallel_correct` compares the ranks with the full-width kernel, in exact arithmetic: the
weights agree, every slot is computed by exactly one rank, and the outputs of the ranks add up to
the full-width output.  A row that has fewer than `TOP_K` logits above `-FLT_MAX` is different: it
leaves slots for which no rank computes anything (`expert_parallel_lowest_row`).
-/

namespace UnimonoMoe

open Interleaving PrefixSum

/-! ## Ranks -/

/-- The same kernel with all experts resident. -/
def Build.fullWidth (B : Build) : Build :=
  { B with
    eLocal := B.numExperts
    eLocal_pos := by
      rw [B.numExperts_eq]
      norm_num
    eLocal_le := le_rfl }

/-- The expert maps of `R` ranks split the experts: every expert has one rank, and every rank
numbers its experts `0, ..., E_LOCAL - 1`. -/
structure ExpertPartition (B : Build) (R : ℕ) (expertMap : ℕ → ℕ → ℤ) : Prop where
  owner : ∀ g < B.numExperts, ∃! r, r < R ∧ 0 ≤ expertMap r g
  lt : ∀ r < R, ∀ g < B.numExperts, expertMap r g < B.eLocal
  inj : ∀ r < R, ∀ g < B.numExperts, ∀ g' < B.numExperts, 0 ≤ expertMap r g →
    expertMap r g = expertMap r g' → g = g'
  onto : ∀ r < R, ∀ l < B.eLocal, ∃ g < B.numExperts, expertMap r g = l

/-- The global expert whose weights a rank holds in slab `l`. -/
def slabOf (B : Build) (expertMap : ℕ → ℤ) (l : ℕ) : ℕ :=
  ((List.range B.numExperts).find? fun g => expertMap g == (l : ℤ)).getD 0

/-- Exact arithmetic of a row: the partial is the weighted row and the final store scales. -/
def exactRow {K : Type*} [Semiring K] (f : ℕ → ℕ → ℕ → K) (outScale : K) : RowOps K K K K K where
  f := f
  partialOf y w := y * w
  zero := 0
  add s p := s + p
  finish _ s := s * outScale

section Ranks

variable {B : Build} {R : ℕ} {expertMap : ℕ → ℕ → ℤ}

/-- The build with all experts is not an expert-parallel one. -/
@[simp] lemma fullWidth_epBuild : B.fullWidth.epBuild = false := by
  simp [Build.epBuild, Build.fullWidth]

/-- It skips no slot. -/
@[simp] lemma fullWidth_skips (id : ℤ) : B.fullWidth.skips id = false := by
  simp [Build.skips]

/-- An expert-parallel build skips the negative ids. -/
lemma skips_eq (hep : B.epBuild = true) (id : ℤ) : B.skips id = decide (id < 0) := by
  simp [Build.skips, hep]

/-- The slab an expert is mapped to holds that expert. -/
lemma ExpertPartition.slabOf_eq (h : ExpertPartition B R expertMap) {r g : ℕ} (hr : r < R)
    (hg : g < B.numExperts) (howned : 0 ≤ expertMap r g) :
    slabOf B (expertMap r) (expertMap r g).toNat = g := by
  unfold slabOf
  rw [Int.toNat_of_nonneg howned]
  cases hfind : (List.range B.numExperts).find? fun g' => expertMap r g' == expertMap r g with
  | none =>
    have hnone := List.find?_eq_none.mp hfind g (List.mem_range.mpr hg)
    simp at hnone
  | some g' =>
    have hmem := List.mem_range.mp (List.mem_of_find?_eq_some hfind)
    have heq : expertMap r g' = expertMap r g := by
      simpa using List.find?_some hfind
    exact (h.inj r hr g hg g' hmem howned heq.symm).symm

end Ranks

/-! ## The router on a rank -/

section RankRouter

variable {F : Type*} [LinearOrder F] {B : Build} {ops : FloatOps F} {bias : Option (ℕ → F)}
  {logits : ℕ → ℕ → F} {R n : ℕ} {expertMap : ℕ → ℕ → ℤ}

/-- The global expert of pair `i`. -/
def globalId (B : Build) (ops : FloatOps F) (bias : Option (ℕ → F)) (logits : ℕ → ℕ → F)
    (i : ℕ) : ℕ :=
  (winner B ops bias (logits (i / B.topK)) (i % B.topK) 0).bidx

/-- Every row offers at least `TOP_K` experts above `-FLT_MAX`. -/
def FullRows (B : Build) (ops : FloatOps F) (bias : Option (ℕ → F)) (logits : ℕ → ℕ → F)
    (n : ℕ) : Prop :=
  ∀ t < n, B.topK ≤ (selectable B ops bias (logits t)).card

/-- On full rows every slot has an expert. -/
lemma FullRows.globalId_lt (h : FullRows B ops bias logits n) (hops : ops.Ordered) {i : ℕ}
    (hi : i < B.numel n) : globalId B ops bias logits i < B.numExperts :=
  winner_lt_of_card hops ((Nat.mod_lt _ topK_pos).trans_le
    (h _ ((Nat.div_lt_iff_lt_mul topK_pos).mpr hi)))

omit [LinearOrder F] in
/-- A rank maps the expert of a slot. -/
lemma rank_ids_of_lt (hep : B.epBuild = true) {m : ℕ → ℤ} {i : ℕ}
    (hi : globalId B ops bias logits i < B.numExperts) :
    (router B ops bias (some m) logits).ids i = m (globalId B ops bias logits i) := by
  simp only [router, remap, hep, if_true]
  exact if_pos hi

omit [LinearOrder F] in
/-- The groups a row keeps do not depend on which experts are resident. -/
lemma groupKeep_fullWidth (row : ℕ → F) (lane r : ℕ) :
    groupKeep B.fullWidth ops bias row lane r = groupKeep B ops bias row lane r := by
  induction r with
  | zero => rfl
  | succ r ih =>
    funext j
    simp only [groupKeep, ih]
    rfl

omit [LinearOrder F] in
/-- Neither does the candidate of a lane. -/
lemma laneCandidate_fullWidth (row : ℕ → F) (used : ℕ → ℕ → Bool) :
    laneCandidate B.fullWidth ops bias row used = laneCandidate B ops bias row used := by
  have hscore : selScore B.fullWidth ops bias row = selScore B ops bias row := by
    funext lane j
    unfold selScore
    rw [groupKeep_fullWidth]
    rfl
  funext lane
  unfold laneCandidate
  rw [hscore]
  rfl

omit [LinearOrder F] in
/-- Neither does what has been retired before a round. -/
lemma usedBefore_fullWidth (row : ℕ → F) (k : ℕ) :
    usedBefore B.fullWidth ops bias row k = usedBefore B ops bias row k := by
  induction k with
  | zero => rfl
  | succ k ih =>
    funext lane j
    simp only [usedBefore, ih, laneCandidate_fullWidth]

omit [LinearOrder F] in
/-- Every rank selects what the full-width kernel selects. -/
lemma winner_fullWidth (row : ℕ → F) (k lane : ℕ) :
    winner B.fullWidth ops bias row k lane = winner B ops bias row k lane := by
  unfold winner
  rw [usedBefore_fullWidth, laneCandidate_fullWidth]

omit [LinearOrder F] in
/-- Every rank normalizes over all slots, as the full-width kernel does. -/
lemma rank_weights (m : ℕ → ℤ) : (router B ops bias (some m) logits).weights =
    (router B.fullWidth ops bias none logits).weights := by
  have hraw : ∀ row k, rawWeight B.fullWidth ops bias row k = rawWeight B ops bias row k := by
    intro row k
    unfold rawWeight
    rw [winner_fullWidth]
    rfl
  funext i
  simp only [router, slotWeight, weightSum, hraw]
  rfl

omit [LinearOrder F] in
/-- The build with all experts keeps it. -/
lemma fullWidth_ids (i : ℕ) : (router B.fullWidth ops bias none logits).ids i =
    (globalId B ops bias logits i : ℤ) := by
  simp only [router, remap, fullWidth_epBuild, winner_fullWidth, globalId]
  rfl

omit [LinearOrder F] in
/-- A slot without an expert belongs to no rank. -/
lemma rank_ids_of_ge (hep : B.epBuild = true) {m : ℕ → ℤ} {i : ℕ}
    (hi : B.numExperts ≤ globalId B ops bias logits i) :
    (router B ops bias (some m) logits).ids i = -1 := by
  simp only [router, remap, hep, if_true]
  exact if_neg hi.not_gt

omit [LinearOrder F] in
/-- A rank stores ids the rest of its kernel can work with, whatever the logits. -/
lemma routedIds_rank (hep : B.epBuild = true) (hmaps : ExpertPartition B R expertMap) {r : ℕ}
    (hr : r < R) : RoutedIds B n (router B ops bias (some (expertMap r)) logits).ids := by
  intro i _
  rcases lt_or_ge (globalId B ops bias logits i) B.numExperts with hlt | hge
  · rw [rank_ids_of_lt hep hlt]
    rcases lt_or_ge (expertMap r (globalId B ops bias logits i)) 0 with hneg | hnonneg
    · exact Or.inr ⟨hep, hneg⟩
    · exact Or.inl ⟨hnonneg, hmaps.lt r hr _ hlt⟩
  · rw [rank_ids_of_ge hep hge]
    exact Or.inr ⟨hep, by norm_num⟩

/-- Its ids are routed. -/
lemma routedIds_fullWidth (hops : ops.Ordered) (hrows : FullRows B ops bias logits n) :
    RoutedIds B.fullWidth n (router B.fullWidth ops bias none logits).ids := by
  intro i hi
  rw [fullWidth_ids]
  exact Or.inl ⟨Int.natCast_nonneg _, Int.ofNat_lt.mpr (hrows.globalId_lt hops hi)⟩

/-- Exactly one rank owns a slot. -/
lemma exists_unique_rank (hops : ops.Ordered) (hep : B.epBuild = true)
    (hmaps : ExpertPartition B R expertMap) (hrows : FullRows B ops bias logits n) {i : ℕ}
    (hi : i < B.numel n) :
    ∃! r, r < R ∧ B.skips ((router B ops bias (some (expertMap r)) logits).ids i) = false := by
  have hlt := hrows.globalId_lt hops hi
  have hskip : ∀ r, B.skips ((router B ops bias (some (expertMap r)) logits).ids i) = false ↔
      0 ≤ expertMap r (globalId B ops bias logits i) := fun r => by
    rw [skips_eq hep, rank_ids_of_lt hep hlt, decide_eq_false_iff_not, not_lt]
  simp only [hskip]
  exact hmaps.owner _ hlt

end RankRouter

/-! ## The sum over the ranks -/

section Sums

variable {K : Type*} [Field K] {B : Build}

/-- A fold over the owned slots is a sum over all slots. -/
lemma foldl_filter_eq_sum (p : ℕ → Bool) (g : ℕ → K) (b n : ℕ) :
    (((List.range n).map fun k => b + k).filter p).foldl (fun s i => s + g i) 0 =
      ∑ k ∈ Finset.range n, if p (b + k) then g (b + k) else 0 := by
  induction n with
  | zero => rfl
  | succ n ih =>
    rw [List.range_succ, List.map_append, List.filter_append, List.foldl_append, ih,
      Finset.sum_range_succ]
    by_cases hp : p (b + n) = true <;> simp [hp]

/-- The slot-order sum in exact arithmetic. -/
lemma moeOut_exact (ids : ℕ → ℤ) (f : ℕ → ℕ → ℕ → K) (outScale : K) (weights : ℕ → K)
    (tok h : ℕ) : moeOut B ids (exactRow f outScale) weights tok h =
      (∑ k ∈ Finset.range B.topK, if !B.skips (ids (tok * B.topK + k)) then
        f (expertOf ids (tok * B.topK + k)) tok h * weights (tok * B.topK + k) else 0) *
          outScale := by
  unfold moeOut exactRow ownedSlots
  exact congrArg (· * outScale) (foldl_filter_eq_sum (fun i => !B.skips (ids i))
    (fun i => f (expertOf ids i) tok h * weights i) _ _)

variable [LinearOrder K] {exp : K → K} {lowest tiny : K} {bias : Option (ℕ → K)}
  {logits : ℕ → ℕ → K} {R n : ℕ} {expertMap : ℕ → ℕ → ℤ}

/-- The rank sums of a token add up to the full-width sum. -/
lemma sum_moeOut_ranks (hep : B.epBuild = true) (hmaps : ExpertPartition B R expertMap)
    (hrows : FullRows B (FloatOps.exact exp lowest tiny) bias logits n)
    (f : ℕ → ℕ → ℕ → K) (outScale : K) (weights : ℕ → K) {tok : ℕ} (htok : tok < n) (h : ℕ) :
    ∑ r ∈ Finset.range R, moeOut B
        (router B (FloatOps.exact exp lowest tiny) bias (some (expertMap r)) logits).ids
        (exactRow (fun l => f (slabOf B (expertMap r) l)) outScale) weights tok h =
      moeOut B.fullWidth
        (router B.fullWidth (FloatOps.exact exp lowest tiny) bias none logits).ids
        (exactRow f outScale) weights tok h := by
  have hops := FloatOps.exact_ordered exp lowest tiny
  simp only [moeOut_exact]
  rw [← Finset.sum_mul, Finset.sum_comm]
  congr 1
  refine Finset.sum_congr rfl fun k hk => ?_
  have hi : tok * B.topK + k < B.numel n := Loops.rowMajor_lt htok (Finset.mem_range.mp hk)
  have hlt := hrows.globalId_lt hops hi
  obtain ⟨r, ⟨hr, hskip⟩, huniq⟩ := exists_unique_rank hops hep hmaps hrows hi
  rw [Finset.sum_eq_single_of_mem r (Finset.mem_range.mpr hr)]
  · -- the rank that owns the slot uses the slab of the global expert
    have howned : 0 ≤ expertMap r (globalId B (FloatOps.exact exp lowest tiny) bias logits
        (tok * B.topK + k)) := by
      rwa [skips_eq hep, rank_ids_of_lt hep hlt, decide_eq_false_iff_not, not_lt] at hskip
    have hslab := hmaps.slabOf_eq hr hlt howned
    rw [hskip, fullWidth_skips, expertOf, expertOf, rank_ids_of_lt hep hlt, hslab]
    change _ = if _ then f ((router B.fullWidth _ bias none logits).ids
      (tok * B.topK + k)).toNat tok h * weights (tok * B.topK + k) else 0
    rw [fullWidth_ids, Int.toNat_natCast]
  · intro r' hr' hne
    rw [if_neg]
    intro hown
    exact hne (huniq r' ⟨Finset.mem_range.mp hr', by simpa using hown⟩)

end Sums

/-! ## The ranks and the full-width kernel -/

section Main

variable {K : Type*} [Field K] [LinearOrder K]

/-- The ranks of an expert partition compute what the full-width kernel computes, when every row
has at least `TOP_K` selectable experts: the weights are those of the full-width kernel, every
slot is computed by exactly one rank, the outputs add up to the full-width output, and a rank that
owns no slot of a token contributes zero. -/
theorem expert_parallel_correct {B : Build} (hep : B.epBuild = true) {R n : ℕ}
    {expertMap : ℕ → ℕ → ℤ} (hmaps : ExpertPartition B R expertMap) (exp : K → K)
    (lowest tiny : K) (bias : Option (ℕ → K)) (logits : ℕ → ℕ → K)
    (hrows : FullRows B (FloatOps.exact exp lowest tiny) bias logits n) (f : ℕ → ℕ → ℕ → K)
    (outScale : K) (c : ℕ → LaunchCall) (hc : ∀ r < R, launcherCheck B (c r) = 0)
    (hn : ∀ r < R, (c r).numTokens.toNat = n)
    (runs : ∀ r, PipelineRun B (c r).phase3Args
      (router B (FloatOps.exact exp lowest tiny) bias (some (expertMap r)) logits).ids)
    (old : ℕ → Leftovers K K K) (cf : LaunchCall) (hcf : launcherCheck B.fullWidth cf = 0)
    (hnf : cf.numTokens.toNat = n)
    (full : PipelineRun B.fullWidth cf.phase3Args
      (router B.fullWidth (FloatOps.exact exp lowest tiny) bias none logits).ids)
    (oldFull : Leftovers K K K) :
    let ranks := fun r => router B (FloatOps.exact exp lowest tiny) bias (some (expertMap r)) logits
    let whole := router B.fullWidth (FloatOps.exact exp lowest tiny) bias none logits
    let out := fun r => (runs r).out (exactRow (fun l => f (slabOf B (expertMap r) l)) outScale)
      (ranks r).weights (old r)
    (∀ r < R, (ranks r).weights = whole.weights) ∧
    (∀ i < B.numel n, ∃ r < R,
      (∀ h < B.hDim, (runs r).writes (old r) (cellIndex B n (h / nFeat) i (h % nFeat)) = 1) ∧
      ∀ r' < R, r' ≠ r → ∀ h < B.hDim,
        (runs r').writes (old r') (cellIndex B n (h / nFeat) i (h % nFeat)) = 0) ∧
    (∀ tok < n, ∀ h < B.hDim, ∑ r ∈ Finset.range R, out r (tok * B.hDim + h) =
      full.out (exactRow f outScale) whole.weights oldFull (tok * B.hDim + h)) ∧
    (∀ r < R, ∀ tok < n, (∀ k < B.topK, (ranks r).ids (tok * B.topK + k) < 0) →
      ∀ h < B.hDim, out r (tok * B.hDim + h) = 0) := by
  intro ranks whole out
  have hops := FloatOps.exact_ordered exp lowest tiny
  have htokens : ∀ r < R, (c r).phase3Args.numTokens = n := fun r hr => hn r hr
  have hids : ∀ r < R, RoutedIds B (c r).phase3Args.numTokens (ranks r).ids := fun r hr =>
    routedIds_rank hep hmaps hr
  have hout : ∀ r < R, ∀ tok < n, ∀ h < B.hDim, out r (tok * B.hDim + h) =
      moeOut B (ranks r).ids (exactRow (fun l => f (slabOf B (expertMap r) l)) outScale)
        (ranks r).weights tok h := fun r hr tok htok h hh =>
    (runs r).out_eq (Launched.of_launcherCheck (hc r hr)) (hids r hr) _ _ _
      (htok.trans_eq (htokens r hr).symm) hh
  have hfull : ∀ tok < n, ∀ h < B.hDim,
      full.out (exactRow f outScale) whole.weights oldFull (tok * B.hDim + h) =
        moeOut B.fullWidth whole.ids (exactRow f outScale) whole.weights tok h := by
    intro tok htok h hh
    refine full.out_eq (Launched.of_launcherCheck hcf) ?_ _ _ _ (htok.trans_eq hnf.symm) hh
    exact (congrArg (RoutedIds B.fullWidth · whole.ids) hnf).mpr (routedIds_fullWidth hops hrows)
  refine ⟨fun r _ => rank_weights _, fun i hi => ?_, fun tok htok h hh => ?_,
    fun r hr tok htok hnone h hh => ?_⟩
  · obtain ⟨r, ⟨hr, hskip⟩, huniq⟩ := exists_unique_rank hops hep hmaps hrows hi
    refine ⟨r, hr, fun h hh => ?_, fun r' hr' hne h _ => ?_⟩
    · have hown : Owned B (c r).phase3Args.numTokens (ranks r).ids i :=
        ⟨hi.trans_eq (by rw [htokens r hr]), hskip⟩
      have hone := ((runs r).accum_eq (hids r hr) (exactRow f outScale) (ranks r).weights (old r)
        hown hh).2
      rwa [htokens r hr] at hone
    · have hother : B.skips ((ranks r').ids i) = true := by
        by_contra hown
        exact hne (huniq r' ⟨hr', Bool.not_eq_true _ ▸ hown⟩)
      have hzero := (runs r').writes_eq_zero (hids r' hr') (old r') (hi.trans_eq (by
        rw [htokens r' hr'])) hother (h / nFeat) (Nat.mod_lt h (by norm_num [nFeat]))
      rwa [htokens r' hr'] at hzero
  · rw [hfull tok htok h hh, ← sum_moeOut_ranks hep hmaps hrows f outScale _ htok h]
    refine Finset.sum_congr rfl fun r hr => ?_
    rw [hout r (Finset.mem_range.mp hr) tok htok h hh]
    exact congrArg (moeOut B _ _ · tok h) (rank_weights _)
  · rw [hout r hr tok htok h hh, moeOut_exact, Finset.sum_eq_zero, zero_mul]
    intro k hk
    rw [if_neg]
    rw [skips_eq hep, decide_eq_true (hnone k (Finset.mem_range.mp hk))]
    exact Bool.false_ne_true

end Main

section Examples

/-- The maps of four ranks with 64 consecutive experts each. -/
def blockMap (r g : ℕ) : ℤ := if g / 64 = r then (g % 64 : ℕ) else -1

/-- Four ranks with a quarter of the experts each. -/
lemma expertPartition_blockMap : ExpertPartition qwenEP 4 blockMap := by
  have hsize : qwenEP.numExperts = 256 := rfl
  have hlocal : qwenEP.eLocal = 64 := rfl
  refine ⟨fun g hg => ⟨g / 64, ⟨by omega, by
      rw [blockMap, if_pos rfl]
      exact Int.natCast_nonneg _⟩, ?_⟩, fun r _ g _ => ?_,
    fun r _ g _ g' _ hown heq => ?_, fun r hr l hl => ⟨r * 64 + l, by omega, ?_⟩⟩
  · rintro r ⟨_, hown⟩
    unfold blockMap at hown
    split_ifs at hown with hr
    · exact hr.symm
    · omega
  · unfold blockMap
    split_ifs <;> omega
  · unfold blockMap at hown heq
    split_ifs at hown heq <;> omega
  · rw [blockMap, if_pos (by omega)]
    omega

/-- `-FLT_MAX`, the largest finite magnitude of binary32. -/
def negFltMax : ℚ := -((2 ^ 24 - 1) * 2 ^ 104 : ℕ)

/-- Exact arithmetic with a stand-in for the exponential. -/
def ratOps : FloatOps ℚ := FloatOps.exact (fun x => x + 100) negFltMax 0

/-- Every eighth expert of a rank is preferred, so that every rank owns two slots of a token. -/
def spreadLogits (_ g : ℕ) : ℚ := if g % 32 = 0 then 1 else 0

/-- The lowest value of the sample arithmetic. -/
lemma lowest_ratOps : ratOps.lowest = negFltMax := rfl

/-- A row function that tells experts, tokens and columns apart. -/
def sampleRow (g tok h : ℕ) : ℚ := g + 2 * tok + 3 * h

/-- Four ranks and the full-width kernel, on a token that all ranks work on. -/
theorem expert_parallel_correct_blockMap :
    ∑ r ∈ Finset.range 4,
        (PipelineRun.serial qwenEP threeTokens.phase3Args
          (router qwenEP ratOps none (some (blockMap r)) spreadLogits).ids).out
          (exactRow (fun l => sampleRow (slabOf qwenEP (blockMap r) l)) 1)
          (router qwenEP ratOps none (some (blockMap r)) spreadLogits).weights
          ⟨fun _ => 1, fun _ => 1, fun _ => 1, fun _ => 1⟩ (2 * qwenEP.hDim + 5) =
      (PipelineRun.serial qwenEP.fullWidth
          ({ threeTokens with expertMap := false } : LaunchCall).phase3Args
          (router qwenEP.fullWidth ratOps none none spreadLogits).ids).out
        (exactRow sampleRow 1)
        (router qwenEP.fullWidth ratOps none none spreadLogits).weights
        ⟨fun _ => 1, fun _ => 1, fun _ => 1, fun _ => 1⟩ (2 * qwenEP.hDim + 5) := by
  have hrows : FullRows qwenEP ratOps none spreadLogits 3 := by
    intro t _
    have hall : selectable qwenEP ratOps none (spreadLogits t) = Finset.range 256 := by
      refine Finset.filter_true_of_mem fun g _ => ?_
      rw [score_of_softmax rfl, lowest_ratOps]
      have hlow : negFltMax < 0 := by norm_num [negFltMax]
      unfold spreadLogits
      split_ifs
      · exact hlow.trans one_pos
      · exact hlow
    rw [hall, Finset.card_range]
    decide
  exact (expert_parallel_correct rfl expertPartition_blockMap _ _ _ none spreadLogits hrows
    sampleRow 1 (fun _ => threeTokens) (fun _ _ => by decide)
    (fun _ _ => rfl) (fun _ => PipelineRun.serial _ _ _) (fun _ => ⟨fun _ => 1, fun _ => 1,
      fun _ => 1, fun _ => 1⟩) { threeTokens with expertMap := false } (by decide) rfl
    (PipelineRun.serial _ _ _) _).2.2.1 2 (by decide) 5 (by decide)

/-- When all logits of a row are `-FLT_MAX`, no rank computes anything for its first slot. -/
theorem expert_parallel_lowest_row :
    ExpertPartition qwenEP 4 blockMap ∧ launcherCheck qwenEP threeTokens = 0 ∧
      ∀ r < 4, ∀ run : PipelineRun qwenEP threeTokens.phase3Args
        (router qwenEP ratOps none (some (blockMap r)) fun _ _ => negFltMax).ids,
        ∀ old : Leftovers ℚ ℚ ℚ, ∀ h < qwenEP.hDim,
          run.writes old (cellIndex qwenEP 3 (h / nFeat) 0 (h % nFeat)) = 0 := by
  refine ⟨expertPartition_blockMap, by decide, fun r hr run old h _ => ?_⟩
  have hnone : ∀ e, ¬ Available qwenEP ratOps none (fun _ => negFltMax) 0 e := by
    rintro e ⟨_, hlow, _⟩
    rw [score_of_softmax rfl, lowest_ratOps] at hlow
    exact absurd hlow (lt_irrefl negFltMax)
  have hmax : globalId qwenEP ratOps none (fun _ _ => negFltMax) 0 = int32Max :=
    winner_eq_int32Max (FloatOps.exact_ordered _ _ _) hnone
  have hid : (router qwenEP ratOps none (some (blockMap r)) fun _ _ => negFltMax).ids 0 = -1 :=
    rank_ids_of_ge rfl (hmax.symm ▸ by decide)
  refine run.writes_eq_zero (routedIds_rank rfl expertPartition_blockMap hr) old (by decide) ?_ _
    (Nat.mod_lt h (by norm_num [nFeat]))
  rw [hid]
  decide

end Examples

end UnimonoMoe
