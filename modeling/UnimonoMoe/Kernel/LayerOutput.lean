import UnimonoMoe.Kernel.EpilogueResult
import UnimonoMoe.Kernel.ExpertParallel
import UnimonoMoe.Kernel.KernelOutput
import UnimonoMoe.Kernel.RouterReference

/-!
# The output of the layer

A launch through the router entry selects the experts itself.  Its output is then a function of the
logits and the row of a token: the experts of the reference router, the best first, each of them
with its renormalized weight (`layerOut`).  `layer_output` says so for one rank, with or without an
expert map.

Two results are about all ranks.  Under expert parallelism the outputs of the ranks add up to the
sum over all selected experts, wherever the experts are (`expert_parallel_layer`).  Under tensor
parallelism every rank holds, once it has finished a launch, the sum of what the launch computes on
all ranks (`tensor_parallel_layer`); there the fused epilogue takes its parts from runs of the
kernel.
-/

namespace UnimonoMoe

open Loops Interleaving Epochs TopK

variable {B : Build} {F W P S O : Type*}

/-! ## The reference layer -/

section Reference

variable [LinearOrder F] (B) (rops : FloatOps F) (bias : Option (ℕ → F))
  (expertMap : Option (ℕ → ℤ)) (row : ℕ → F)

/-- The sum of the weights of the selected experts, the best first. -/
def refWeightSum : F :=
  (refTopK B rops bias row).foldl (fun s e => rops.add s (refWeight B rops row e)) rops.zero

/-- The weight of expert `e` after renormalization. -/
def refRouting (e : ℕ) : F :=
  rops.mul (refWeight B rops row e)
    (rops.div rops.one (rops.max (refWeightSum B rops bias row) rops.tiny))

/-- The selected experts that a rank holds, the best first. -/
def heldTopK : List ℕ :=
  (refTopK B rops bias row).filter fun e => !B.skips (remap B expertMap e)

/-- What a rank computes for column `h` of token `tok`: the weighted rows of the selected experts
that it holds. -/
def layerOut (ops : RowOps Float32 F P S O) (tok h : ℕ) : O :=
  ops.finish (tok * B.hDim + h) ((heldTopK B rops bias expertMap row).foldl (fun s e =>
    ops.add s (ops.partialOf (ops.f (remap B expertMap e).toNat tok h)
      (refRouting B rops bias row e))) ops.zero)

end Reference

/-! ## One rank -/

section Routed

variable [LinearOrder F] {rops : FloatOps F} {bias : Option (ℕ → F)}
  {expertMap : Option (ℕ → ℤ)} {logits : ℕ → ℕ → F} {tok h k : ℕ}

/-- Phase 0 stores the renormalized weight of the expert of a slot. -/
lemma slotWeight_eq (hB : B.Shipped) (hops : rops.Ordered) (hmax : ∀ a b, rops.max a b = max a b)
    {row : ℕ → F} (hrow : AboveLowest B rops bias row) (hk : k < B.topK) :
    slotWeight B rops bias row k =
      refRouting B rops bias row (winner B rops bias row k 0).bidx := by
  have hsum : weightSum B rops bias row = refWeightSum B rops bias row := by
    unfold weightSum refWeightSum
    rw [← selected_eq_refTopK hB hops hmax hrow, List.foldl_map]
    refine List.foldl_ext _ _ _ fun s k hk => ?_
    rw [rawWeight_eq hB hops hmax hrow (List.mem_range.mp hk)]
  unfold slotWeight refRouting
  rw [rawWeight_eq hB hops hmax hrow hk, hsum]

/-- With the ids and the weights of phase 0 the slots of a token are the selected experts. -/
lemma moeOut_router (hB : B.Shipped) (hops : rops.Ordered) (hmax : ∀ a b, rops.max a b = max a b)
    (hrow : AboveLowest B rops bias (logits tok)) (ops : RowOps Float32 F P S O) :
    moeOut B (router B rops bias expertMap logits).ids ops
        (router B rops bias expertMap logits).weights tok h =
      layerOut B rops bias expertMap (logits tok) ops tok h := by
  have hid : ∀ k < B.topK, (router B rops bias expertMap logits).ids (tok * B.topK + k) =
      remap B expertMap (winner B rops bias (logits tok) k 0).bidx := by
    intro k hk
    obtain ⟨hdiv, hmod⟩ := slot_div_mod (t := tok) hk
    simp only [router, hdiv, hmod]
  have hweight : ∀ k < B.topK, (router B rops bias expertMap logits).weights (tok * B.topK + k) =
      refRouting B rops bias (logits tok) (winner B rops bias (logits tok) k 0).bidx := by
    intro k hk
    obtain ⟨hdiv, hmod⟩ := slot_div_mod (t := tok) hk
    simp only [router, hdiv, hmod]
    exact slotWeight_eq hB hops hmax hrow hk
  have hheld : heldTopK B rops bias expertMap (logits tok) =
      ((List.range B.topK).filter fun k => !B.skips
        ((router B rops bias expertMap logits).ids (tok * B.topK + k))).map
          fun k => (winner B rops bias (logits tok) k 0).bidx := by
    unfold heldTopK
    rw [← selected_eq_refTopK hB hops hmax hrow, List.filter_map]
    refine congrArg _ (List.filter_congr fun k hk => ?_)
    rw [Function.comp_apply, hid k (List.mem_range.mp hk)]
  have hslots : ownedSlots B (router B rops bias expertMap logits).ids tok =
      ((List.range B.topK).filter fun k => !B.skips
        ((router B rops bias expertMap logits).ids (tok * B.topK + k))).map
          fun k => tok * B.topK + k := List.filter_map
  unfold moeOut layerOut
  rw [hheld, hslots, List.foldl_map, List.foldl_map]
  refine congrArg _ (List.foldl_ext _ _ _ fun s k hk => ?_)
  have hk := List.mem_range.mp (List.mem_filter.mp hk).1
  unfold expertOf
  rw [hid k hk, hweight k hk]

/-- The output of a run with the ids and the weights of phase 0. -/
lemma KernelRun.layerOut_eq (hB : B.Shipped) (hops : rops.Ordered)
    (hmax : ∀ a b, rops.max a b = max a b) {c : LaunchCall} {A : TileArith UInt8}
    {X : ExpertData UInt8} {m : QuantCell → UInt32}
    (run : KernelRun B c (router B rops bias expertMap logits).ids A X m P O)
    (ops : RowOps Float32 F P S O) (hrow : AboveLowest B rops bias (logits tok))
    (htok : tok < c.numTokens.toNat) (hh : h < B.hDim) :
    run.out ops (router B rops bias expertMap logits).weights (tok * B.hDim + h) =
      layerOut B rops bias expertMap (logits tok)
        { ops with f := (quantizedData B A X m).expertRow A B } tok h :=
  (run.out_eq ops _ htok hh).trans (moeOut_router hB hops hmax hrow _)

/-- The output of every run of a launch through the router entry, element by element: the experts
that the reference router selects for the token and that the rank holds, the best first, each with
its renormalized weight and with what it makes of the quantized row of the token. -/
theorem layer_output (hB : B.Shipped) (hops : rops.Ordered) (hmax : ∀ a b, rops.max a b = max a b)
    {c : LaunchCall} {A : TileArith UInt8} {X : ExpertData UInt8} {m : QuantCell → UInt32}
    (run : KernelRun B c (router B rops bias expertMap logits).ids A X m P O)
    (ops : RowOps Float32 F P S O) (hrow : AboveLowest B rops bias (logits tok))
    (htok : tok < c.numTokens.toNat) (hh : h < B.hDim) :
    run.out ops (router B rops bias expertMap logits).weights (tok * B.hDim + h) =
      ops.finish (tok * B.hDim + h)
        (((refTopK B rops bias (logits tok)).filter fun e => !B.skips (remap B expertMap e)).foldl
          (fun s e => ops.add s (ops.partialOf
            ((quantizedData B A X m).expertRow A B (remap B expertMap e).toNat tok h)
            (refRouting B rops bias (logits tok) e))) ops.zero) :=
  run.layerOut_eq hB hops hmax ops hrow htok hh

/-- Phase 0 of a build with all experts stores ids that the rest of the kernel can work with. -/
lemma routedIds_router (hB : B.Shipped) (hep : B.epBuild = false) (hops : rops.Ordered)
    (hmax : ∀ a b, rops.max a b = max a b) {n : ℕ}
    (hrows : ∀ t < n, AboveLowest B rops bias (logits t)) :
    RoutedIds B n (router B rops bias expertMap logits).ids := by
  intro i hi
  have hrow := hrows _ ((Nat.div_lt_iff_lt_mul topK_pos).mpr hi)
  obtain ⟨e, he, hwin⟩ := exists_winner_of_lt hB hops hmax hrow (Nat.mod_lt i topK_pos)
  have hlt := (mem_candidates.mp he).1
  have hlocal : B.eLocal = B.numExperts := by simpa [Build.epBuild] using hep
  simp only [router, remap, hep, hwin]
  exact Or.inl ⟨Int.natCast_nonneg _, Int.ofNat_lt.mpr (hlt.trans_eq hlocal.symm)⟩

/-! ### A grouped row full of ties -/

/-- Partials in exact arithmetic. -/
def exactOps : RowOps Float32 ℚ ℚ ℚ ℚ where
  f _ _ _ := 0
  partialOf y w := y.toUInt8.toNat * w
  zero := 0
  add s p := s + p
  finish _ s := s

/-- The sample launch has a run. -/
lemma exists_tiedRun {a : LaunchArgs} {q world : ℕ} (X : ExpertData UInt8)
    (hcall : launcherCheck deepseekTP (a.call deepseekTP q world) = 0) :
    Nonempty (KernelRun deepseekTP (a.call deepseekTP q world)
      (router deepseekTP groupedOps none none tiedLogits).ids intArith X onesInput ℚ ℚ) := by
  have htiled : deepseekTP.Tiled := Build.Shipped.tiled (Or.inl rfl)
  have hids : RoutedIds deepseekTP (a.call deepseekTP q world).phase3Args.numTokens
      (router deepseekTP groupedOps none none tiedLogits).ids :=
    routedIds_router (Or.inl rfl) (by decide) (FloatOps.exact_ordered _ _ _) (fun _ _ => rfl)
      fun _ _ => groupedOps_aboveLowest
  exact exists_kernelRun hcall htiled hids intArith X onesInput
    ⟨fun _ => 1, fun _ => 1, fun _ => 1, fun _ => 1⟩ fun _ => onesMem htiled

/-- Column 5 of the third token. -/
theorem layer_output_tied :
    let R := router deepseekTP groupedOps none none tiedLogits
    let X := quantizedData deepseekTP intArith smallOperands onesInput
    ∃ run : KernelRun deepseekTP ((⟨16, 4, 14⟩ : LaunchArgs).call deepseekTP 0 2) R.ids intArith
        smallOperands onesInput ℚ ℚ,
      run.out exactOps R.weights (2 * deepseekTP.hDim + 5) =
        exactOps.finish (2 * deepseekTP.hDim + 5)
          (((refTopK deepseekTP groupedOps none (tiedLogits 2)).filter fun e =>
              !deepseekTP.skips (remap deepseekTP none e)).foldl (fun s e =>
            exactOps.add s (exactOps.partialOf
              (X.expertRow intArith deepseekTP (remap deepseekTP none e).toNat 2 5)
              (refRouting deepseekTP groupedOps none (tiedLogits 2) e))) exactOps.zero) := by
  have hcall : launcherCheck deepseekTP ((⟨16, 4, 14⟩ : LaunchArgs).call deepseekTP 0 2) = 0 := by
    decide
  obtain ⟨run⟩ := exists_tiedRun smallOperands hcall
  exact ⟨run, layer_output (Or.inl rfl) (FloatOps.exact_ordered _ _ _) (fun _ _ => rfl) run exactOps
    groupedOps_aboveLowest (by decide) (by decide)⟩

end Routed

/-! ## Expert parallelism -/

section ExpertParallel

variable [LinearOrder F] {K : Type*} [AddCommMonoid K] {rops : FloatOps F} {bias : Option (ℕ → F)}
  {logits : ℕ → ℕ → F} {tok h R : ℕ} {expertMap : ℕ → ℕ → ℤ}

/-- Partials that add up exactly, and a final store that respects sums. -/
def sumRow (partialOf : Float32 → F → K) (store : K →+ K) : RowOps Float32 F K K K where
  f _ _ _ := 0
  partialOf := partialOf
  zero := 0
  add := (· + ·)
  finish _ := store

/-- A list is summed over ranks each of which sums its own part. -/
lemma sum_ranks {l : List ℕ} {p : ℕ → ℕ → Bool} {g : ℕ → ℕ → K} {f : ℕ → K}
    (howner : ∀ e ∈ l, ∃! r, r < R ∧ p r e = true)
    (hsame : ∀ e ∈ l, ∀ r < R, p r e = true → g r e = f e) :
    ∑ r ∈ Finset.range R, ((l.filter (p r)).map (g r)).sum = (l.map f).sum := by
  induction l with
  | nil => simp
  | cons e l ih =>
    have hsplit : ∀ r, (((e :: l).filter (p r)).map (g r)).sum =
        (if p r e then g r e else 0) + ((l.filter (p r)).map (g r)).sum := by
      intro r
      rw [List.filter_cons]
      split_ifs <;> simp
    obtain ⟨r, ⟨hr, hown⟩, huniq⟩ := howner e List.mem_cons_self
    have hone : ∑ r ∈ Finset.range R, (if p r e then g r e else 0) = f e := by
      rw [Finset.sum_eq_single_of_mem r (Finset.mem_range.mpr hr), if_pos hown]
      · exact hsame e List.mem_cons_self r hr hown
      · intro r' hr' hne
        exact if_neg fun hown' => hne (huniq r' ⟨Finset.mem_range.mp hr', hown'⟩)
    simp only [hsplit]
    rw [Finset.sum_add_distrib, hone, ih (fun e he => howner e (List.mem_cons_of_mem _ he))
      (fun e he => hsame e (List.mem_cons_of_mem _ he)), List.map_cons, List.sum_cons]

/-- A fold of partials is a sum. -/
lemma foldl_partials (l : List ℕ) (g : ℕ → K) :
    l.foldl (fun s e => s + g e) 0 = (l.map g).sum := by
  rw [List.sum_eq_foldl, List.foldl_map]

/-- The output of a layer with a sum of partial products. -/
lemma layerOut_sumRow (partialOf : Float32 → F → K) (store : K →+ K) (f : ℕ → ℕ → ℕ → Float32)
    (map : Option (ℕ → ℤ)) (row : ℕ → F) :
    layerOut B rops bias map row { sumRow partialOf store with f := f } tok h =
      store ((heldTopK B rops bias map row).map fun e =>
        partialOf (f (remap B map e).toNat tok h) (refRouting B rops bias row e)).sum :=
  congrArg store (foldl_partials _ _)

/-- The ranks of an expert partition run the launch on the same input, each on the experts that it
holds.  Their outputs add up to the sum over all the experts that the reference router selects,
whatever the runs of the ranks are. -/
theorem expert_parallel_layer (hB : B.Shipped) (hep : B.epBuild = true) (hops : rops.Ordered)
    (hmax : ∀ a b, rops.max a b = max a b) (hmaps : ExpertPartition B R expertMap)
    {A : TileArith UInt8} {X : ℕ → ExpertData UInt8} {G : ExpertData UInt8}
    (hslabs : ∀ r < R, ∀ e < B.numExperts, 0 ≤ expertMap r e →
      SameExpert B (X r) G (expertMap r e).toNat e)
    {c : ℕ → LaunchCall} {m : QuantCell → UInt32} (runs : ∀ r, KernelRun B (c r)
      (router B rops bias (some (expertMap r)) logits).ids A (X r) m K K)
    (partialOf : Float32 → F → K) (store : K →+ K)
    (hrow : AboveLowest B rops bias (logits tok)) (htok : ∀ r < R, tok < (c r).numTokens.toNat)
    (hh : h < B.hDim) :
    ∑ r ∈ Finset.range R, (runs r).out (sumRow partialOf store)
        (router B rops bias (some (expertMap r)) logits).weights (tok * B.hDim + h) =
      store ((refTopK B rops bias (logits tok)).map fun e =>
        partialOf ((quantizedData B A G m).expertRow A B e tok h)
          (refRouting B rops bias (logits tok) e)).sum := by
  have hlt : ∀ e ∈ refTopK B rops bias (logits tok), e < B.numExperts := fun e he =>
    (mem_candidates.mp (mem_of_mem_topK he)).1
  have hremap : ∀ r, ∀ e < B.numExperts, remap B (some (expertMap r)) e = expertMap r e := by
    intro r e he
    simp only [remap, hep, if_true, if_pos he]
  have hskip : ∀ r, ∀ e < B.numExperts,
      (!B.skips (remap B (some (expertMap r)) e)) = true ↔ 0 ≤ expertMap r e := by
    intro r e he
    rw [hremap r e he, skips_eq hep, Bool.not_eq_true', decide_eq_false_iff_not, not_lt]
  have hout : ∀ r ∈ Finset.range R, (runs r).out (sumRow partialOf store)
      (router B rops bias (some (expertMap r)) logits).weights (tok * B.hDim + h) =
        store ((heldTopK B rops bias (some (expertMap r)) (logits tok)).map fun e =>
          partialOf ((quantizedData B A (X r) m).expertRow A B
            (remap B (some (expertMap r)) e).toNat tok h)
              (refRouting B rops bias (logits tok) e)).sum := by
    intro r hr
    rw [(runs r).layerOut_eq hB hops hmax _ hrow (htok r (Finset.mem_range.mp hr)) hh,
      layerOut_sumRow]
  rw [Finset.sum_congr rfl hout, ← map_sum]
  congr 1
  refine sum_ranks (fun e he => ?_) fun e he r hr hown => ?_
  · simp only [hskip _ e (hlt e he)]
    exact hmaps.owner e (hlt e he)
  · have hslab := hslabs r hr e (hlt e he) ((hskip r e (hlt e he)).mp hown)
    rw [hremap r e (hlt e he)]
    congr 1
    exact ExpertData.expertRow_congr (runs r).tiled
      (sameRow_quantizedData (runs r).tiled fun _ _ => rfl) hslab.quantized hh

/-! ### Four ranks -/

/-- The weights of the experts that rank `r` holds when every rank holds consecutive ones. -/
def shardData (B : Build) (G : ExpertData UInt8) (r : ℕ) : ExpertData UInt8 :=
  { G with
    upWFp8 := fun i => G.upWFp8 (r * B.eLocal * B.nUp * B.kDim + i)
    upWScales := fun i => G.upWScales (r * B.eLocal * (B.nUp / 128) * B.nKblk + i)
    downWFp8 := fun i => G.downWFp8 (r * B.eLocal * B.hDim * B.nHalf + i)
    downWScales := fun i => G.downWScales (r * B.eLocal * (B.hDim / 128) * B.dKblk + i) }

/-- The experts of a shard are those of the whole. -/
lemma sameExpert_shardData (G : ExpertData UInt8) (r l : ℕ) :
    SameExpert B (shardData B G r) G l (r * B.eLocal + l) :=
  ⟨fun _ _ _ _ => congrArg G.upWFp8 (by ring), fun _ _ _ _ => congrArg G.upWScales (by ring),
    fun _ _ _ _ => congrArg G.downWFp8 (by ring), fun _ _ _ _ => congrArg G.downWScales (by ring)⟩

/-- Experts that differ. -/
def spreadOperands : ExpertData UInt8 :=
  { smallOperands with
    upWFp8 := fun i => (i / 65536).toUInt8
    downWFp8 := fun i => (i / 4096).toUInt8 }

/-- The spread logits are above the lowest value. -/
lemma aboveLowest_spread (t : ℕ) : AboveLowest qwenEP ratOps none (spreadLogits t) := by
  have hlow : negFltMax < 0 := by norm_num [negFltMax]
  refine .of_forall (fun e _ => ?_) fun hmode => absurd hmode (by decide)
  have hscore : refScore qwenEP ratOps none (spreadLogits t) e = spreadLogits t e := if_pos rfl
  rw [hscore, lowest_ratOps]
  unfold spreadLogits
  split_ifs
  · exact hlow.trans one_pos
  · exact hlow

/-- The ids that a rank of the block map works on are routed. -/
lemma routedIds_blockMap (r n : ℕ) :
    RoutedIds qwenEP n (router qwenEP ratOps none (some (blockMap r)) spreadLogits).ids := by
  have hmap : ∀ g, blockMap r g < qwenEP.eLocal := by
    intro g
    have hsize : qwenEP.eLocal = 64 := rfl
    unfold blockMap
    split_ifs <;> omega
  intro i _
  rcases lt_or_ge (globalId qwenEP ratOps none spreadLogits i) qwenEP.numExperts with hlt | hge
  · rw [rank_ids_of_lt (by decide) hlt]
    rcases lt_or_ge (blockMap r (globalId qwenEP ratOps none spreadLogits i)) 0 with hneg | hown
    · exact Or.inr ⟨by decide, hneg⟩
    · exact Or.inl ⟨hown, hmap _⟩
  · rw [rank_ids_of_ge (by decide) hge]
    exact Or.inr ⟨by decide, by decide⟩

/-- Every rank of the block map has a run. -/
lemma exists_spreadRun (r : ℕ) : Nonempty (KernelRun qwenEP threeTokens
    (router qwenEP ratOps none (some (blockMap r)) spreadLogits).ids intArith
    (shardData qwenEP spreadOperands r) onesInput ℚ ℚ) := by
  have htiled : qwenEP.Tiled := Build.Shipped.tiled (Or.inr (Or.inr rfl))
  exact exists_kernelRun (by decide) htiled (routedIds_blockMap r _) intArith _ onesInput
    ⟨fun _ => 1, fun _ => 1, fun _ => 1, fun _ => 1⟩ fun _ => onesMem htiled

/-- Column 5 of the last token, which all four ranks work on. -/
theorem expert_parallel_layer_blockMap :
    let R := fun r => router qwenEP ratOps none (some (blockMap r)) spreadLogits
    let X := quantizedData qwenEP intArith spreadOperands onesInput
    let partialOf : Float32 → ℚ → ℚ := fun y w => y.toUInt8.toNat * w
    let store : ℚ →+ ℚ := AddMonoidHom.mulRight 2
    ∃ runs : ∀ r, KernelRun qwenEP threeTokens (R r).ids intArith
        (shardData qwenEP spreadOperands r) onesInput ℚ ℚ,
      ∑ r ∈ Finset.range 4, (runs r).out (sumRow partialOf store) (R r).weights
          (2 * qwenEP.hDim + 5) =
        store ((refTopK qwenEP ratOps none (spreadLogits 2)).map fun e =>
          partialOf (X.expertRow intArith qwenEP e 2 5)
            (refRouting qwenEP ratOps none (spreadLogits 2) e)).sum := by
  have hslabs : ∀ r < 4, ∀ e < qwenEP.numExperts, 0 ≤ blockMap r e → SameExpert qwenEP
      (shardData qwenEP spreadOperands r) spreadOperands (blockMap r e).toNat e := by
    intro r _ e _ hown
    have hexpert : r * qwenEP.eLocal + (blockMap r e).toNat = e := by
      rw [show qwenEP.eLocal = 64 from rfl]
      unfold blockMap at hown ⊢
      split_ifs at hown ⊢ <;> omega
    have hsame := sameExpert_shardData (B := qwenEP) spreadOperands r (blockMap r e).toNat
    rwa [hexpert] at hsame
  intro R X partialOf store
  have hsum := expert_parallel_layer (Or.inr (Or.inr rfl)) (by decide)
    (FloatOps.exact_ordered _ _ _) (fun _ _ => rfl) expertPartition_blockMap hslabs
    (fun r => (exists_spreadRun r).some) partialOf store (aboveLowest_spread 2)
    (fun _ _ => by decide) (by decide : 5 < qwenEP.hDim)
  exact ⟨fun r => (exists_spreadRun r).some, hsum⟩

end ExpertParallel

/-! ## Tensor parallelism -/

/-- A session of fused launches on the ranks of a tensor-parallel group.  In every launch each rank
has the same logits and the same input and runs the kernel on its own part of the experts. -/
structure TensorParallel [LinearOrder F] (B : Build) (rops : FloatOps F) (bias : Option (ℕ → F))
    (A : TileArith UInt8) (world : ℕ) (P S K : Type*) where
  launches : Launches B
  logits : ℕ → ℕ → ℕ → F
  input : ℕ → QuantCell → UInt32
  experts : Fin world → ExpertData UInt8
  ops : ℕ → Fin world → RowOps Float32 F P S K
  runs (n : ℕ) (q : Fin world) : KernelRun B ((launches.args n).call B q world)
    (router B rops bias none (logits n)).ids A (experts q) (input n) P K

namespace TensorParallel

variable [LinearOrder F] {rops : FloatOps F} {bias : Option (ℕ → F)} {A : TileArith UInt8}
  {world : ℕ} {K : Type*} (T : TensorParallel B rops bias A world P S K)

/-- The unit `u` that rank `q` stores into its output in launch `n`. -/
def part (n : ℕ) (q : Fin world) (u : ℕ) (j : Fin Build.tpMM) : K :=
  (T.runs n q).out (T.ops n q) (router B rops bias none (T.logits n)).weights (u * Build.tpMM + j)

end TensorParallel

section TensorParallel

variable [LinearOrder F] {rops : FloatOps F} {bias : Option (ℕ → F)} {A : TileArith UInt8}
  {world : ℕ} {K : Type*} [AddCommMonoid K] {n tok h : ℕ} {r : Fin world}

/-- The fused layer.  When a rank has finished a launch, each element of its output is the sum, over
all ranks, of what the reference layer computes from the part of the experts on the rank, until the
rank stores the element again in a later launch. -/
theorem tensor_parallel_layer (hB : B.Shipped) (hops : rops.Ordered)
    (hmax : ∀ a b, rops.max a b = max a b) (T : TensorParallel B rops bias A world P S K)
    {m₀ : Mem world (Fin Build.tpMM → K)} {c : EpilogueConfig B world (Fin Build.tpMM → K)}
    (hpads : HasPads B world) (hfresh : Fresh m₀)
    (hreach : (epilogue T.launches T.part).Reachable m₀ c) (hn : 0 < n)
    (hfin : Finished c n r) (hrow : AboveLowest B rops bias (T.logits n tok))
    (htok : tok < (T.launches.args n).numTokens) (hh : h < B.hDim)
    (hno : NotStoredAfter T.launches T.part c n r ((tok * B.hDim + h) / Build.tpMM)) :
    c.mem.out r ((tok * B.hDim + h) / Build.tpMM)
        ⟨(tok * B.hDim + h) % Build.tpMM, Nat.mod_lt _ (by decide)⟩ =
      ∑ q, layerOut B rops bias none (T.logits n tok) { T.ops n q with
        f := (quantizedData B A (T.experts q) (T.input n)).expertRow A B } tok h := by
  have hdvd : Build.tpMM ∣ (T.launches.args n).outElems B :=
    (((by decide : Build.tpMM ∣ 256)).trans B.hDim_dvd).mul_left _
  have hunit : (tok * B.hDim + h) / Build.tpMM < (T.launches.args n).outMv B :=
    Nat.div_lt_div_of_lt_of_dvd hdvd (rowMajor_lt htok hh)
  rw [(outInv r.pos hpads hfresh hreach).multicast n r _
    (hasMulticast_of_finished r.pos hpads hfresh hreach hn hunit hfin) hno, Finset.sum_apply]
  refine Finset.sum_congr rfl fun q _ => ?_
  rw [← (T.runs n q).layerOut_eq hB hops hmax (T.ops n q) hrow htok hh]
  exact congrArg _ (Nat.div_add_mod' _ _)

/-! ### Two launches on two ranks -/

/-- The launcher accepts both launches. -/
lemma launcherCheck_twoLaunches (n : ℕ) (q : Fin 2) :
    launcherCheck deepseekTP ((twoLaunches.args n).call deepseekTP q 2) = 0 := by
  have hargs : twoLaunches.args n = ⟨16, 4, 14⟩ ∨ twoLaunches.args n = ⟨8, 2, 12⟩ := by
    rcases n with - | - | - | n
    · exact Or.inl rfl
    · exact Or.inl rfl
    · exact Or.inr rfl
    · exact Or.inl rfl
  rcases hargs with heq | heq <;> rw [heq] <;> revert q <;> decide

/-- Column 5 of token 3 on rank 0, once both launches are over. -/
theorem tensor_parallel_layer_twoRanks :
    let X := fun q => quantizedData deepseekTP intArith (shardData deepseekTP spreadOperands q)
      onesInput
    ∃ (T : TensorParallel deepseekTP groupedOps none intArith 2 ℚ ℚ ℚ)
      (c : EpilogueConfig deepseekTP 2 (Fin Build.tpMM → ℚ)),
      (epilogue T.launches T.part).Reachable (zeroMem 2 _) c ∧
      c.mem.out 0 ((3 * deepseekTP.hDim + 5) / Build.tpMM)
          ⟨(3 * deepseekTP.hDim + 5) % Build.tpMM, Nat.mod_lt _ (by decide)⟩ =
        ∑ q : Fin 2, layerOut deepseekTP groupedOps none none (tiedLogits 3)
          { exactOps with f := (X q).expertRow intArith deepseekTP } 3 5 := by
  let T : TensorParallel deepseekTP groupedOps none intArith 2 ℚ ℚ ℚ :=
    { launches := twoLaunches
      logits := fun _ => tiedLogits
      input := fun _ => onesInput
      experts := fun q => shardData deepseekTP spreadOperands q
      ops := fun _ _ => exactOps
      runs := fun n q => (exists_tiedRun _ (launcherCheck_twoLaunches n q)).some }
  obtain ⟨run, hrun⟩ := (epilogue T.launches T.part).exists_maximalRun (zeroMem 2 _)
  obtain ⟨K, hK⟩ := hrun.exists_stuck
  have hreach := hrun.reachable K
  obtain ⟨hepoch, hidle⟩ := finished_of_stuck fresh_zeroMem hreach (hK K le_rfl) 0
  have hlast : NotStoredAfter T.launches T.part (run K) 2 0
      ((3 * deepseekTP.hDim + 5) / Build.tpMM) := by
    intro k hk hst
    have hle := hst.epoch_le
    rw [hepoch] at hle
    exact absurd hk (not_lt.mpr hle)
  exact ⟨T, run K, hreach, tensor_parallel_layer (Or.inl rfl) (FloatOps.exact_ordered _ _ _)
    (fun _ _ => rfl) T (by decide) fresh_zeroMem hreach Nat.two_pos (Or.inr ⟨hepoch.symm, hidle⟩)
    groupedOps_aboveLowest (by decide) (by decide) hlast⟩

end TensorParallel

end UnimonoMoe
