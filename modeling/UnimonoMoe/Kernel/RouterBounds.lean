import UnimonoMoe.Kernel.Pipeline
import UnimonoMoe.Kernel.Router
import UnimonoMoe.Lib.Binary32

/-!
# Expert indices on arbitrary logits

The selection of the router starts from `-FLT_MAX` and takes over what compares greater, so entries
that are not a number or `-inf` are never taken over.  Its candidates therefore are numbers at
least `-FLT_MAX` whatever the logits are, and `FloatOps.Ieee.ranked` makes the results about ranked
comparisons available: a round selects an expert as long as one is left that compares greater than
`-FLT_MAX`, and yields `INT32_MAX` afterwards.

The expert-parallel build catches `INT32_MAX` in its remap.  The tensor-parallel builds store it
and count it in `expert_counts[INT32_MAX]`; `router_ids_safe_iff` says for which logits they do not.
-/

namespace UnimonoMoe

/-- The comparisons of the router are those of binary32; nothing is asked of its arithmetic. -/
structure FloatOps.Ieee (ops : FloatOps Float32) : Prop where
  gt : ∀ a b, ops.gt a b = b.lt a
  eq : ∀ a b, ops.eq a b = a.beq b
  lowest : ops.lowest = Float32.ofBits 0xFF7FFFFF

/-- `-FLT_MAX` is a number. -/
lemma not_isNaN_lowest : ¬ Binary32.IsNaN (Float32.ofBits 0xFF7FFFFF) := fun h =>
  absurd (congrArg Float.Model.UnpackedFloat.isNaN h) (by decide)

/-- Among numbers the comparisons are those of the ranks. -/
lemma FloatOps.Ieee.ranked {ops : FloatOps Float32} (h : ops.Ieee) :
    ops.Ranked Binary32.rank fun x => ¬ Binary32.IsNaN x where
  gt_iff a b hb := by
    rw [h.gt, Binary32.lt_iff]
    exact ⟨fun hlt => hlt.2.2, fun hlt => ⟨hb, Binary32.not_isNaN_of_lt hlt, hlt⟩⟩
  eq_iff a b ha hb := by
    rw [h.eq, Binary32.beq_iff]
    exact ⟨fun heq => heq.2.2, fun heq => ⟨ha, hb, heq⟩⟩
  lowest := h.lowest ▸ not_isNaN_lowest
  above _ _ _ hlt := Binary32.not_isNaN_of_lt hlt

/-- The ids are harmless to the phases behind the router: every slot is in range or passed over,
and whatever is counted, scattered or summed is in range. -/
structure SafeIds (B : Build) (numTokens : ℕ) (ids : ℕ → ℤ) : Prop where
  routed : RoutedIds B numTokens ids
  counted : ∀ t, ∀ i ∈ countProg B numTokens ids t, 0 ≤ ids i ∧ ids i < B.eLocal
  scattered : ∀ t, ∀ op ∈ scatterProg B numTokens ids t,
    0 ≤ ids op.slot ∧ ids op.slot < B.eLocal
  summed : ∀ tok < numTokens, ∀ i ∈ ownedSlots B ids tok, 0 ≤ ids i ∧ ids i < B.eLocal

/-- Of the expert map only the entries of the `E` experts are read. -/
def MapReadsInBounds (B : Build) (ops : FloatOps Float32) (bias : Option (ℕ → Float32))
    (expertMap : Option (ℕ → ℤ)) (logits : ℕ → ℕ → Float32) : Prop :=
  ∀ m, expertMap = some m → ∀ m', (∀ g < B.numExperts, m' g = m g) →
    (router B ops bias (some m') logits).ids = (router B ops bias (some m) logits).ids

section Bounds

variable {B : Build} {ops : FloatOps Float32} {bias : Option (ℕ → Float32)}
  {expertMap : Option (ℕ → ℤ)} {logits : ℕ → ℕ → Float32} {n : ℕ}

/-- Routed ids are safe. -/
lemma RoutedIds.safe {ids : ℕ → ℤ} (h : RoutedIds B n ids) : SafeIds B n ids where
  routed := h
  counted t i hi := (covers_countProg.sound t i hi).range h
  scattered _ _ hop := (mem_scatterProg.mp hop).1.range h
  summed _ htok _ hi := ((mem_ownedSlots (a := ⟨n, 1, 1⟩) htok).mp hi).1.range h

/-- The guard of the remap reads no entry at or beyond `E`. -/
lemma mapReadsInBounds : MapReadsInBounds B ops bias expertMap logits := by
  intro m _ m' hagree
  funext i
  simp only [router, remap]
  split_ifs with hep hlt
  · exact hagree _ hlt
  · rfl
  · rfl

/-- The expert-parallel build stores a local id or passes the slot over. -/
lemma routedIds_of_epBuild (hep : B.epBuild = true)
    (hmap : ∀ m, expertMap = some m → ∀ g < B.numExperts, m g < B.eLocal) :
    RoutedIds B n (router B ops bias expertMap logits).ids := by
  intro i _
  simp only [router, remap, hep, if_true]
  cases hm : expertMap with
  | none => exact Or.inr ⟨trivial, by norm_num⟩
  | some m =>
    dsimp only
    split_ifs with hlt
    · rcases lt_or_ge (m _) 0 with hneg | hnonneg
      · exact Or.inr ⟨trivial, hneg⟩
      · exact Or.inl ⟨hnonneg, hmap m hm _ hlt⟩
    · exact Or.inr ⟨trivial, by norm_num⟩

/-- The tensor-parallel builds store the winner as it is. -/
lemma routedIds_iff_of_not_epBuild (hep : B.epBuild = false) :
    RoutedIds B n (router B ops bias expertMap logits).ids ↔
      ∀ t < n, ∀ k < B.topK, (winner B ops bias (logits t) k 0).bidx < B.numExperts := by
  have hlocal : B.eLocal = B.numExperts := by simpa [Build.epBuild] using hep
  simp only [RoutedIds, router, remap, hep, Bool.false_eq_true, if_false, false_and, or_false,
    Int.natCast_nonneg, true_and, Int.ofNat_lt, hlocal]
  constructor
  · intro h t ht k hk
    have hslot := h (t * B.topK + k) (Loops.rowMajor_lt ht hk)
    rwa [Loops.rowMajor_div hk, Loops.rowMajor_mod hk] at hslot
  · intro h i hi
    exact h _ ((Nat.div_lt_iff_lt_mul topK_pos).mpr hi) _ (Nat.mod_lt _ topK_pos)

/-- For every logits, biases and local expert map: the reads of the map are in bounds, and the
stored ids are safe for all later phases, exactly when the build is expert parallel or every row
offers at least `TOP_K` experts whose score compares greater than `-FLT_MAX`. -/
theorem router_ids_safe_iff (hops : ops.Ieee)
    (hmap : ∀ m, expertMap = some m → ∀ g < B.numExperts, m g < B.eLocal) :
    (MapReadsInBounds B ops bias expertMap logits ∧
      SafeIds B n (router B ops bias expertMap logits).ids) ↔
      B.epBuild = true ∨ ∀ t < n, B.topK ≤ (offered B ops bias (logits t)).card := by
  have hsafe : SafeIds B n (router B ops bias expertMap logits).ids ↔
      RoutedIds B n (router B ops bias expertMap logits).ids :=
    ⟨SafeIds.routed, RoutedIds.safe⟩
  rw [and_iff_right mapReadsInBounds, hsafe]
  cases hep : B.epBuild with
  | true => exact iff_of_true (routedIds_of_epBuild hep hmap) (Or.inl rfl)
  | false =>
    rw [routedIds_iff_of_not_epBuild hep, or_iff_right Bool.false_ne_true]
    exact forall₂_congr fun t _ => winners_lt_iff hops.ranked B.topK

/-- Under softmax an expert is offered when its logit is a number greater than `-FLT_MAX`. -/
lemma mem_offered_of_softmax (hops : ops.Ieee) (hmode : B.routerMode = 0) {row : ℕ → Float32}
    {e : ℕ} : e ∈ offered B ops bias row ↔ e < B.numExperts ∧ ops.lowest.lt (row e) = true := by
  unfold offered
  rw [Finset.mem_filter, Finset.mem_range, score_of_softmax hmode, hops.gt]

end Bounds

/-! ## Rows with nothing to select -/

section Examples

/-- The router's operations on `Float32`. -/
def float32Ops : FloatOps Float32 where
  gt a b := b.lt a
  eq a b := a.beq b
  max a b := if a.isNaN then b else if b.isNaN then a else if a.lt b then b else a
  add := Float32.add
  sub := Float32.sub
  mul := Float32.mul
  div := Float32.div
  neg := Float32.neg
  exp := Float32.exp
  zero := Float32.ofBits 0
  one := Float32.ofBits 0x3F800000
  lowest := Float32.ofBits 0xFF7FFFFF
  tiny := Float32.ofBits 0x0DA24260

/-- The operations of the kernel are those of IEEE 754. -/
lemma float32Ops_ieee : float32Ops.Ieee := ⟨fun _ _ => rfl, fun _ _ => rfl, rfl⟩

/-- A row of zeros on the softmax build. -/
theorem router_ids_safe_iff_zeros :
    SafeIds qwenTP 1 (router qwenTP float32Ops none none fun _ _ => Float32.ofBits 0).ids := by
  have hmap : ∀ m : ℕ → ℤ, none = some m → ∀ g < qwenTP.numExperts, m g < qwenTP.eLocal := nofun
  refine ((router_ids_safe_iff float32Ops_ieee hmap).mpr (Or.inr fun t _ => ?_)).2
  have hall : offered qwenTP float32Ops none (fun _ => Float32.ofBits 0) = Finset.range 256 := by
    ext e
    rw [mem_offered_of_softmax float32Ops_ieee rfl, Finset.mem_range]
    exact and_iff_left (by decide)
  rw [hall, Finset.card_range]
  decide

/-- A row without a number: every slot of the tensor-parallel build is counted in
`expert_counts[INT32_MAX]`. -/
theorem nan_row_out_of_bounds :
    (router qwenTP float32Ops none none fun _ _ => Float32.ofBits 0x7FC00000).ids 0 = 2147483647 ∧
    ¬ SafeIds qwenTP 1
      (router qwenTP float32Ops none none fun _ _ => Float32.ofBits 0x7FC00000).ids := by
  have hid : (router qwenTP float32Ops none none fun _ _ => Float32.ofBits 0x7FC00000).ids 0 =
      2147483647 := by
    have hnone : ∀ e, ¬ RankAvailable Binary32.rank qwenTP float32Ops none
        (fun _ => Float32.ofBits 0x7FC00000) 0 e := by
      rintro e ⟨_, hlow, _⟩
      rw [score_of_softmax rfl] at hlow
      exact absurd (Binary32.lt_iff.mpr ⟨not_isNaN_lowest, Binary32.not_isNaN_of_lt hlow, hlow⟩)
        (by decide)
    exact congrArg Nat.cast (winner_eq_int32Max_ranked float32Ops_ieee.ranked hnone)
  refine ⟨hid, fun hsafe => ?_⟩
  rcases hsafe.routed 0 (by decide) with ⟨_, hlt⟩ | ⟨hep, _⟩
  · rw [hid] at hlt
    exact absurd hlt (by decide)
  · exact absurd hep (by decide)

end Examples

end UnimonoMoe
