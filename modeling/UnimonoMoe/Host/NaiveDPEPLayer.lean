import Mathlib.Algebra.BigOperators.Fin
import Mathlib.Algebra.BigOperators.Pi
import UnimonoMoe.Host.DeepEPLayer

/-!
# The layer over all-gather and reduce-scatter

The other way to spread the experts: `prepare` gathers the tokens of all ranks on every rank,
each rank runs its experts on the whole batch, and `finalize` adds up the results and leaves every
rank its own rows.  The ranks have to agree on how many rows each of them has.  With data
parallelism the numbers are in the metadata of the forward pass, otherwise a rank takes all numbers
to be its own.

The collectives of the group are parameters: `GathersRows` and `ScattersSums` say what they do for
ranks that pass the same sizes, and nothing is assumed of ranks that do not.  `naive_layer` says
which sizes the ranks pass, what the assertion of `dispatch` finds out about them, and that the
layer computes what one rank with all experts computes, and what the layer over DeepEP computes.
The ranks of the group are those that hold experts, and the layer is that of `deepep_layer`.
-/

namespace UnimonoMoe

/-! ## Segments of a list of lists -/

section Segments

variable {V : Type*} {L : List (List V)} {q t : ℕ}

/-- Where list `q` starts in the list of all elements. -/
def segmentStart (sizes : List ℕ) (q : ℕ) : ℕ := (sizes.take q).sum

/-- An element of the list of all elements. -/
lemma getElem?_flatten_segment (hq : q < L.length) (ht : t < L[q].length) :
    L.flatten[segmentStart (L.map List.length) q + t]? = L[q][t]? := by
  have hsplit : L.flatten = (L.take q).flatten ++ (L[q] ++ (L.drop (q + 1)).flatten) := by
    rw [← List.flatten_cons, List.getElem_cons_drop hq, ← List.flatten_append,
      List.take_append_drop]
  have hstart : segmentStart (L.map List.length) q = (L.take q).flatten.length := by
    rw [segmentStart, ← List.map_take, List.length_flatten]
  rw [hsplit, hstart, List.getElem?_append_right (Nat.le_add_right _ _), Nat.add_sub_cancel_left,
    List.getElem?_append_left ht]

/-- A segment ends where the next one starts. -/
lemma segmentStart_add_le {sizes : List ℕ} (hq : q < sizes.length) :
    segmentStart sizes q + sizes[q] ≤ sizes.sum := by
  have hsplit : sizes.sum = (sizes.take q).sum + (sizes[q] + (sizes.drop (q + 1)).sum) := by
    rw [← List.sum_cons, List.getElem_cons_drop hq, ← List.sum_append, List.take_append_drop]
  unfold segmentStart
  omega

end Segments

/-! ## Dispatch and combine -/

section Collectives

variable {world : ℕ} {V : Type}

/-- A collective of the group: what the ranks get of the sizes and the rows that they pass. -/
abbrev Collective (world : ℕ) (V : Type) : Type :=
  (Fin world → List ℕ) → (Fin world → List V) → Fin world → List V

/-- `all_gatherv` gives ranks that pass the right sizes the rows of all ranks, one rank after the
other. -/
def GathersRows (allGatherv : Collective world V) : Prop :=
  ∀ sizes x, (∀ r, sizes r = List.ofFn fun q => (x q).length) →
    ∀ r, allGatherv sizes x r = (List.ofFn x).flatten

/-- `reduce_scatterv` gives ranks that pass the same sizes, and as many rows as these make up, each
its own part of the sum. -/
def ScattersSums [AddCommMonoid V] (reduceScatterv : Collective world V) : Prop :=
  ∀ (numTokens : Fin world → ℕ) sizes x, (∀ r, sizes r = List.ofFn numTokens) →
    (∀ r, (x r).length = ∑ q, numTokens q) → ∀ q,
      (reduceScatterv sizes x q).length = numTokens q ∧
      ∀ t < numTokens q, (reduceScatterv sizes x q)[t]? =
        some (∑ r, (x r).getD (segmentStart (List.ofFn numTokens) q + t) 0)

/-- The manager on the ranks of its group: `dp_world_size`, and what
`dp_metadata.get_chunk_sizes_across_dp_rank()` returns on each of them. -/
structure AgRsAll2AllManager (world : ℕ) where
  dpWorldSize : ℕ
  chunkSizes : Fin world → List ℕ

namespace AgRsAll2AllManager

variable (manager : AgRsAll2AllManager world)

/-- `_get_sizes` on a rank. -/
def getSizes (numLocalTokens : ℕ) (r : Fin world) : List ℕ :=
  if manager.dpWorldSize = 1 then List.replicate world numLocalTokens
  else manager.chunkSizes r

/-- `dispatch` on all ranks, nothing when the assertion of a rank fails. -/
def dispatch (allGatherv : Collective world V) (x : Fin world → List V) :
    Option (Fin world → List V) :=
  let sizes := fun r => manager.getSizes (x r).length r
  if ∀ r, (sizes r)[(r : ℕ)]? = some (x r).length then some (allGatherv sizes x) else none

/-- `combine` on all ranks. -/
def combine (reduceScatterv : Collective world V) (x : Fin world → List V) :
    Fin world → List V :=
  reduceScatterv (fun r => manager.getSizes ((x r).length / world) r) x

/-- The numbers of rows that the ranks take are the right ones. -/
def SizesAgree (numTokens : Fin world → ℕ) : Prop :=
  if manager.dpWorldSize = 1 then ∀ q q', numTokens q = numTokens q'
  else ∀ r, manager.chunkSizes r = List.ofFn numTokens

instance (numTokens : Fin world → ℕ) : Decidable (manager.SizesAgree numTokens) :=
  inferInstanceAs (Decidable (ite _ _ _))

variable {manager}

/-- Then every rank takes the right ones. -/
lemma sizesAgree_iff {numTokens : Fin world → ℕ} : manager.SizesAgree numTokens ↔
    ∀ r, manager.getSizes (numTokens r) r = List.ofFn numTokens := by
  unfold SizesAgree getSizes
  split_ifs with hdp
  · simp only [← List.ofFn_const, List.ofFn_inj, funext_iff]
  · exact Iff.rfl

/-- The assertion of `dispatch` compares the own numbers only: without data parallelism it holds
whatever the other ranks have. -/
lemma dispatch_isSome_iff {allGatherv : Collective world V} {x : Fin world → List V} :
    (∃ gathered, manager.dispatch allGatherv x = some gathered) ↔
      manager.dpWorldSize = 1 ∨
        ∀ r : Fin world, (manager.chunkSizes r)[(r : ℕ)]? = some (x r).length := by
  unfold dispatch getSizes
  by_cases hdp : manager.dpWorldSize = 1 <;> simp [hdp]

/-- When the ranks agree, the dispatch gives every rank the rows of all ranks. -/
lemma dispatch_eq {allGatherv : Collective world V} (hgather : GathersRows allGatherv)
    {x : Fin world → List V} (h : manager.SizesAgree fun q => (x q).length) :
    manager.dispatch allGatherv x = some fun _ => (List.ofFn x).flatten := by
  have hsizes := sizesAgree_iff.mp h
  have hown : ∀ r : Fin world, (manager.getSizes (x r).length r)[(r : ℕ)]? =
      some (x r).length := fun r => by
    rw [hsizes r, List.getElem?_ofFn, dif_pos r.isLt]
  unfold dispatch
  rw [if_pos hown]
  exact congrArg some (funext (hgather _ x hsizes))

/-- The numbers that a rank takes when it combines are those that it took when it dispatched. -/
lemma getSizes_combine {numTokens : Fin world → ℕ} (h : manager.SizesAgree numTokens)
    (r : Fin world) :
    manager.getSizes ((∑ q, numTokens q) / world) r = List.ofFn numTokens := by
  rw [← sizesAgree_iff.mp h r]
  unfold getSizes
  unfold SizesAgree at h
  split_ifs at h ⊢ with hdp
  · have htotal : ∑ q, numTokens q = world * numTokens r := by
      rw [Finset.sum_congr rfl fun q _ => h q r, Finset.sum_const, Finset.card_univ,
        Fintype.card_fin, smul_eq_mul]
    rw [htotal, Nat.mul_div_cancel_left _ (Nat.zero_lt_of_lt r.isLt)]
  · rfl

/-- The combine leaves a rank the rows of the sum where its own rows were. -/
lemma combine_spec [AddCommMonoid V] {reduceScatterv : Collective world V}
    (hscatter : ScattersSums reduceScatterv) {numTokens : Fin world → ℕ}
    (h : manager.SizesAgree numTokens) {x : Fin world → List V}
    (hx : ∀ r, (x r).length = ∑ q, numTokens q) (q : Fin world) :
    (manager.combine reduceScatterv x q).length = numTokens q ∧
      ∀ t < numTokens q, (manager.combine reduceScatterv x q)[t]? =
        some (∑ r, (x r).getD (segmentStart (List.ofFn numTokens) q + t) 0) :=
  hscatter numTokens _ x (fun r => by rw [hx r, getSizes_combine h r]) hx q

end AgRsAll2AllManager

end Collectives

/-! ## The layer -/

/-- What is gathered of a token: its quantized row with its scales, its ids and its weights. -/
structure TokenRow (X K : Type) where
  x : X
  topkIds : ℕ → ℕ
  topkWeights : ℕ → K

section Layer

variable {world perRank : ℕ} {X K : Type} [Field K] [LinearOrder K] {N C H : ℕ}

/-- The rows of a rank. -/
def Batches.localRows (b : Batches world X K) (q : Fin world) : List (TokenRow X K) :=
  (List.range (b.numTokens q)).map fun t => ⟨b.tokens q t, b.topkIds q t, b.topkWeights q t⟩

/-- The gathered ids and weights. -/
def gatheredTopk (topK : ℕ) (gathered : List (TokenRow X K)) : TopkRows K where
  width := topK
  ids r c := (gathered[r]?.map fun row => (row.topkIds c : ℤ)).getD (-1)
  weights := some fun r c => (gathered[r]?.map fun row => row.topkWeights c).getD 0

/-- The gathered rows. -/
def gatheredX [Inhabited X] (gathered : List (TokenRow X K)) (r : ℕ) : X :=
  (gathered[r]?.map TokenRow.x).getD default

/-- A run of the experts of a rank on what has been gathered: its value of `VLLM_EP_FAST_SILU`, the
ragged grid, and what its memory holds. -/
structure NaiveRun (hworld : 2 ≤ world) (hperRank : 0 < perRank) (C topK : ℕ)
    (gathered : List (TokenRow X K)) (d : Fin world) where
  epFastSiluMode : ℕ
  fastSiluSupported : Bool
  epRagged : Bool
  assignment : ExpertAssignment (routing (rankPlacement hworld hperRank d) gathered.length
    (gatheredTopk topK gathered))
  stale : StaleMemory K C

variable {hworld : 2 ≤ world} {hperRank : 0 < perRank} {topK : ℕ} {gathered : List (TokenRow X K)}
  {d : Fin world}

/-- `fused_expert_output` -/
def NaiveRun.expertOutput [Inhabited X] (run : NaiveRun hworld hperRank C topK gathered d)
    (E : LayerExperts X K N C H) : List (Fin H → K) :=
  List.ofFn <| (E.call (rankPlacement hworld hperRank d) gathered.length
    (gatheredTopk topK gathered) (gatheredX gathered) run.epFastSiluMode
      run.fastSiluSupported).apply E.quant .blockFp8 run.assignment run.stale run.epRagged

omit [Field K] [LinearOrder K] in
/-- The map of a rank keeps its own experts. -/
lemma expertMap_ne_iff {e : ℕ} :
    (rankPlacement hworld hperRank d).expertMap e ≠ -1 ↔ e / perRank = d := by
  have hrange : (rankPlacement hworld hperRank d).expertMap e =
      if (((d * perRank : ℕ) : ℤ) ≤ e ∧ (e : ℤ) < (d * perRank : ℕ) + perRank) then
        (e : ℤ) - (d * perRank : ℕ) else -1 := rfl
  rw [hrange, Nat.div_eq_iff hperRank]
  split_ifs with hin
  · exact iff_of_true (by omega) (by omega)
  · exact iff_of_false (by omega) (by omega)

omit [Field K] [LinearOrder K] in
/-- The slab of an own expert. -/
lemma slabExpert_global {e : ℕ} (he : e / perRank = d) :
    slabExpert (rankPlacement hworld hperRank d) (e : ℤ) = e := by
  have hlocal : (e : ℤ) = ((e % perRank : ℕ) : ℤ) + (d * perRank : ℕ) := by
    rw [← he, ← Nat.cast_add, Nat.mod_add_div']
  conv_lhs => rw [hlocal]
  exact slabExpert_local he

/-- A rank makes of a gathered token the weighted rows of its own experts. -/
lemma NaiveRun.expertOutput_gathered [Inhabited X]
    (run : NaiveRun hworld hperRank C topK gathered d) (E : LayerExperts X K N C H) {p : ℕ}
    {row : TokenRow X K} (hp : gathered[p]? = some row) (h : Fin H) :
    (run.expertOutput E).getD p 0 h = ∑ k ∈ Finset.range topK,
      if row.topkIds k / perRank = d then
        row.topkWeights k * E.expertRow (row.topkIds k) row.x h else 0 := by
  have hlt : p < gathered.length := (List.getElem?_eq_some_iff.mp hp).1
  have hlt' : p < (run.expertOutput E).length := by
    unfold expertOutput
    rwa [List.length_ofFn]
  have hrow : (run.expertOutput E)[p] h = _ :=
    (congrFun (List.getElem_ofFn hlt') h).trans (E.apply_call _ _ _ _ _ _ _ _ _ ⟨p, hlt⟩ h)
  rw [List.getD_eq_getElem _ _ hlt', hrow]
  unfold TopkRows.kept TopkRows.slots
  rw [sum_filter_map]
  refine Finset.sum_congr rfl fun k _ => ?_
  have hid : (gatheredTopk topK gathered).ids p k = (row.topkIds k : ℤ) := by
    simp [gatheredTopk, hp]
  have hx : gatheredX gathered p = row.x := by simp [gatheredX, hp]
  simp only [hid, hx, LayerExperts.slotRow, decide_eq_true_eq, expertMap_ne_iff]
  refine ite_congr rfl (fun hk => ?_) fun _ => rfl
  rw [slabExpert_global hk]
  simp [gatheredTopk, hp]

omit [Field K] [LinearOrder K] in
/-- Where the tokens of a rank are among the gathered ones. -/
lemma getElem?_localRows (b : Batches world X K) (q : Fin world) {t : ℕ} (ht : t < b.numTokens q) :
    (List.ofFn b.localRows).flatten[segmentStart (List.ofFn b.numTokens) q + t]? =
      some ⟨b.tokens q t, b.topkIds q t, b.topkWeights q t⟩ := by
  have hlengths : (List.ofFn b.localRows).map List.length = List.ofFn b.numTokens := by
    rw [List.map_ofFn]
    exact congrArg List.ofFn (funext fun q => by simp [Batches.localRows])
  have hq : (q : ℕ) < (List.ofFn b.localRows).length := by simp
  have hget : (List.ofFn b.localRows)[(q : ℕ)] = b.localRows q := List.getElem_ofFn hq
  rw [← hlengths, getElem?_flatten_segment hq (by rw [hget]; simpa [Batches.localRows] using ht),
    hget, Batches.localRows, List.getElem?_map, List.getElem?_range ht]
  rfl

end Layer

/-- The ranks pass the right sizes to the collectives exactly when their numbers agree, of which the
assertion of the dispatch sees a part.  When they agree, whatever modes the ranks run in and
whatever their memory holds, the combine leaves every rank one row for each of its tokens, which is
what one rank with all experts makes of it, and what the layer over DeepEP makes of it, in every
run. -/
theorem naive_layer {world perRank : ℕ} {X K : Type} [Field K] [LinearOrder K] [Inhabited X]
    {N C H : ℕ} (hworld : 2 ≤ world) (hperRank : 0 < perRank) (b : Batches world X K)
    (hids : b.IdsBelow (world * perRank)) (manager : AgRsAll2AllManager world)
    (E : LayerExperts X K N C H) {allGatherv : Collective world (TokenRow X K)}
    (hgather : GathersRows allGatherv) {reduceScatterv : Collective world (Fin H → K)}
    (hscatter : ScattersSums reduceScatterv) :
    (manager.SizesAgree b.numTokens ↔
      ∀ r, manager.getSizes (b.numTokens r) r = List.ofFn b.numTokens) ∧
    ((∃ gathered, manager.dispatch allGatherv b.localRows = some gathered) ↔
      manager.dpWorldSize = 1 ∨
        ∀ r : Fin world, (manager.chunkSizes r)[(r : ℕ)]? = some (b.numTokens r)) ∧
    (manager.SizesAgree b.numTokens →
      ∃ gathered, manager.dispatch allGatherv b.localRows = some gathered ∧
        ∀ (runs : ∀ d, NaiveRun hworld hperRank C b.topK (gathered d) d) (q : Fin world),
          (manager.combine reduceScatterv (fun d => (runs d).expertOutput E) q).length =
            b.numTokens q ∧
          ∀ t < b.numTokens q, ∀ h,
            (manager.combine reduceScatterv (fun d => (runs d).expertOutput E) q).getD t 0 h =
              denseOutput b E q t h ∧
            ∀ (D : Dispatch b perRank) (combine : CombineKernel D H), SumsRows combine →
              ∀ runs' : ∀ d, RankRun hworld hperRank (C := C) D d,
                (manager.combine reduceScatterv (fun d => (runs d).expertOutput E) q).getD t 0 h =
                  combinedX combine runs' E q t h) := by
  have hlengths : ∀ q, (b.localRows q).length = b.numTokens q := fun q => by
    simp [Batches.localRows]
  refine ⟨AgRsAll2AllManager.sizesAgree_iff, ?_, fun hsizes => ?_⟩
  · simp only [AgRsAll2AllManager.dispatch_isSome_iff, hlengths]
  · have hdispatch := AgRsAll2AllManager.dispatch_eq hgather (x := b.localRows)
      (by simpa only [hlengths] using hsizes)
    refine ⟨_, hdispatch, fun runs q => ?_⟩
    have htotal : (List.ofFn b.localRows).flatten.length = ∑ q, b.numTokens q := by
      rw [List.length_flatten, List.map_ofFn, List.sum_ofFn]
      exact Finset.sum_congr rfl fun q _ => hlengths q
    have hrows : ∀ d, ((runs d).expertOutput E).length = ∑ q, b.numTokens q := fun d =>
      List.length_ofFn.trans htotal
    obtain ⟨hlength, hget⟩ := AgRsAll2AllManager.combine_spec hscatter hsizes hrows q
    refine ⟨hlength, fun t ht h => ?_⟩
    have hdense : (manager.combine reduceScatterv (fun d => (runs d).expertOutput E) q).getD t 0 h =
        denseOutput b E q t h := by
      rw [List.getD_eq_getElem?_getD, hget t ht, Option.getD_some, Finset.sum_apply,
        ← sum_ranks_denseOutput hids E ht h]
      exact Finset.sum_congr rfl fun d _ =>
        (runs d).expertOutput_gathered E (getElem?_localRows b q ht) h
    exact ⟨hdense, fun D combine hcombine runs' =>
      hdense.trans (combinedX_eq_denseOutput hids hcombine runs' E ht h).symm⟩

/-! ### Two ranks with different numbers of tokens -/

section UnevenRanks

variable {world : ℕ} {V : Type}

/-- An `all_gatherv` that does not look at the sizes. -/
def gatheredRows : Collective world V := fun _ x _ => (List.ofFn x).flatten

/-- It gathers the rows. -/
lemma gathersRows_gatheredRows : GathersRows (gatheredRows : Collective world V) :=
  fun _ _ _ _ => rfl

/-- A `reduce_scatterv` that adds up all rows and hands out the part that starts behind the rows of
the ranks before. -/
def scatteredSums [AddCommMonoid V] : Collective world V := fun sizes x q =>
  (((List.range (sizes q).sum).map fun p => ∑ r, (x r).getD p 0).drop
    (segmentStart (sizes q) q)).take ((sizes q).getD q 0)

/-- It scatters the sums. -/
lemma scattersSums_scatteredSums [AddCommMonoid V] :
    ScattersSums (scatteredSums : Collective world V) := by
  intro numTokens sizes x hsizes hx q
  have hq : (q : ℕ) < (List.ofFn numTokens).length := by simp
  have hget : (List.ofFn numTokens)[(q : ℕ)] = numTokens q := by simp
  have hle := segmentStart_add_le hq
  rw [hget] at hle
  unfold scatteredSums
  rw [hsizes q, List.getD_eq_getElem _ _ hq, hget]
  constructor
  · rw [List.length_take, List.length_drop, List.length_map, List.length_range]
    omega
  · intro t ht
    rw [List.getElem?_take_of_lt ht, List.getElem?_drop, List.getElem?_map,
      List.getElem?_range (by omega)]
    rfl

/-- Two tokens on the first rank and one on the second. -/
def unevenBatches : Batches 2 ℚ ℚ where
  numTokens q := 2 - q
  topK := 2
  tokens q t := q + t
  topkIds q _ k := q + 2 * k
  topkWeights _ t k := t + k

/-- With data parallelism the metadata says so. -/
def unevenManager : AgRsAll2AllManager 2 := ⟨2, fun _ => [2, 1]⟩

/-- The run of a rank on the full grid, in memory full of one value. -/
def fullGridRun (v : ℚ) (gathered : List (TokenRow ℚ ℚ)) (d : Fin 2) :
    NaiveRun two_le_ranks zero_lt_experts 1 2 gathered d where
  epFastSiluMode := 0
  fastSiluSupported := false
  epRagged := false
  assignment := .ofRange _
  stale := ⟨fun _ => v, fun _ => v, fun _ => ⟨fun _ => v, fun _ => v⟩⟩

/-- The second rank gets its one row back. -/
theorem naive_layer_uneven :
    ∃ gathered, unevenManager.dispatch gatheredRows unevenBatches.localRows = some gathered ∧
      (unevenManager.combine scatteredSums
        (fun d => (fullGridRun 300 (gathered d) d).expertOutput scalingExperts) 1).getD 0 0 0 =
          denseOutput unevenBatches scalingExperts 1 0 0 := by
  have hlayer := naive_layer two_le_ranks zero_lt_experts unevenBatches
    (by intro q t _ k hk; simp only [unevenBatches] at hk ⊢; omega) unevenManager scalingExperts
    gathersRows_gatheredRows scattersSums_scatteredSums
  obtain ⟨gathered, hdispatch, hruns⟩ := hlayer.2.2 (by decide)
  exact ⟨gathered, hdispatch,
    ((hruns (fun d => fullGridRun 300 (gathered d) d) 1).2 0 one_pos 0).1⟩

end UnevenRanks

end UnimonoMoe
