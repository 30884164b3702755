import Mathlib.Algebra.BigOperators.Ring.Finset
import Mathlib.Tactic.FinCases
import UnimonoMoe.Host.FastSilu
import UnimonoMoe.Host.TopkCompaction

/-!
# The layer over DeepEP

The experts are spread over the ranks of a group, and every rank has a batch of its own tokens.
`prepare` sends a token to the ranks that hold one of its experts.  There the receiver puts the ids
back into the global space and may narrow the rows, the Triton experts work on what was received,
and `finalize` sends the rows back and adds them up.

The DeepEP kernels are parameters: `Dispatch` says which rows `buffer.dispatch` hands to a rank, and
`SumsRows` that `buffer.combine` adds up what the ranks make of a token.  `deepep_layer` says that
the layer computes what one rank with all experts and all tokens would compute, in every mode of
every rank.  It is about block-quantized experts without LoRA and sums in exact arithmetic.
-/

namespace UnimonoMoe

open RowBuffers

/-! ## Prepare -/

/-- The batches of the ranks with their routing.  A token is its quantized row with its scales. -/
structure Batches (world : ℕ) (X K : Type) where
  numTokens : Fin world → ℕ
  topK : ℕ
  tokens : Fin world → ℕ → X
  topkIds : Fin world → ℕ → ℕ → ℕ
  topkWeights : Fin world → ℕ → ℕ → K

section Prepare

variable {world : ℕ} {X K : Type}

/-- The rows that `buffer.dispatch` hands to the ranks: each token once to every rank that holds one
of its experts, in any order.  With `num_worst_tokens` there are more rows behind them. -/
structure Dispatch (b : Batches world X K) (perRank : ℕ) where
  received : Fin world → List (Fin world × ℕ)
  nodup : ∀ d, (received d).Nodup
  mem_received : ∀ d q t, (q, t) ∈ received d ↔
    t < b.numTokens q ∧ ∃ k < b.topK, b.topkIds q t k / perRank = d
  padding : Fin world → ℕ
  paddingRow : Fin world → ℕ → X

variable [Zero K] {b : Batches world X K} {perRank : ℕ} (D : Dispatch b perRank) (d : Fin world)

/-- `expert_x` -/
def Dispatch.expertX (r : ℕ) : X :=
  match (D.received d)[r]? with
  | some (q, t) => b.tokens q t
  | none => D.paddingRow d r

/-- `expert_topk_ids` and `expert_topk_weights`: the ids of the experts on the rank itself, and `-1`
for all others and behind the received rows. -/
def Dispatch.recv : Received K where
  n := (D.received d).length + D.padding d
  full := b.topK
  ids r c :=
    match (D.received d)[r]? with
    | some (q, t) => if b.topkIds q t c / perRank = d then (b.topkIds q t c % perRank : ℕ) else -1
    | none => -1
  weights := some fun r c =>
    match (D.received d)[r]? with
    | some (q, t) => if b.topkIds q t c / perRank = d then b.topkWeights q t c else 0
    | none => 0

end Prepare

/-! ## The experts -/

/-- The sum of two elements, which is exact here. -/
def exactAdd {K : Type} [Field K] (x y : K) : K := x + y

/-- Zero adds nothing to it. -/
lemma exactAdd_zero {K : Type} [Field K] (x : K) : exactAdd x 0 = x := add_zero x

/-- The experts of a layer, by their global ids, and the operations between their GEMMs. -/
structure LayerExperts (X K : Type) [Field K] [LinearOrder K] (N C H : ℕ) where
  w13 : ℕ → X → Fin N → K
  w2 : ℕ → QuantRow K C → Fin H → K
  activation : (Fin N → K) → Fin C → K
  siluAndMulPerBlockQuant : (Fin N → K) → QuantRow K C
  quant : QuantKernels K
  a2Scale : K
  isSilu : Bool
  deepGemmE8m0Used : Bool

section Experts

variable {X K : Type} [Field K] [LinearOrder K] {N C H : ℕ} (E : LayerExperts X K N C H)

/-- The quantized activation of a row between the GEMMs. -/
def LayerExperts.quantized (row : Fin N → K) : QuantRow K C :=
  if E.isSilu && !E.deepGemmE8m0Used then E.siluAndMulPerBlockQuant row
  else E.quant.rowQuant .blockFp8 C (E.activation row)

/-- What an expert makes of a token. -/
def LayerExperts.expertRow (e : ℕ) (x : X) : Fin H → K := E.w2 e (E.quantized (E.w13 e x))

/-- The routing that the experts of a rank see. -/
def routing (P : Placement) (n : ℕ) (rows : TopkRows K) : SlotRouting where
  numTokens := n
  topK := rows.width
  topkIds i := rows.ids (i / rows.width) (i % rows.width)
  expertMap g := P.expertMap g

/-- The slab of the expert that a slot names, by the global id of the expert. -/
def slabExpert (P : Placement) (id : ℤ) : ℕ := P.offset + (P.expertMap id).toNat

/-- The call of the Triton experts on the rows that a rank has received. -/
def LayerExperts.call (P : Placement) (n : ℕ) (rows : TopkRows K) (x : ℕ → X)
    (epFastSiluMode : ℕ) (fastSiluSupported : Bool) : TritonCall K (routing P n rows) N C H where
  w13 i := E.w13 (slabExpert P (rows.ids (i / rows.width) (i % rows.width))) (x (i / rows.width))
  activation := E.activation
  w2 i row h := (rows.weights.elim 1 fun w => w (i / rows.width) (i % rows.width)) *
    E.w2 (slabExpert P (rows.ids (i / rows.width) (i % rows.width))) row h
  add := exactAdd
  add_zero := exactAdd_zero
  a2Scale := E.a2Scale
  lora := none
  isSilu := E.isSilu
  deepGemmE8m0Used := E.deepGemmE8m0Used
  siluAndMulPerBlockQuant := E.siluAndMulPerBlockQuant
  epFastSiluMode := epFastSiluMode
  fastSiluSupported := fastSiluSupported

end Experts

/-! ## Finalize -/

section Finalize

variable {world perRank : ℕ} {X K : Type} [Field K] [LinearOrder K] {N C H : ℕ}
  {b : Batches world X K} (hworld : 2 ≤ world) (hperRank : 0 < perRank)

/-- The experts of a rank. -/
def rankPlacement (d : Fin world) : Placement := .ofRank world d perRank hworld d.isLt hperRank

variable (E : LayerExperts X K N C H) (D : Dispatch b perRank)

/-- A run of a rank: its values of `VLLM_EP_TOPK_COMPACT`, `VLLM_EP_FAST_SILU` and the ragged grid,
the order of its programs, and what its memory holds. -/
structure RankRun (d : Fin world) where
  compact : ℤ
  order : List ℕ
  order_perm : order.Perm (List.range (((D.recv d).n + 127) / 128))
  rows : TopkRows K
  receiver_eq : receiverTopk (D.recv d) (rankPlacement hworld hperRank d).numExperts
    (rankPlacement hworld hperRank d).offset compact order = some rows
  epFastSiluMode : ℕ
  fastSiluSupported : Bool
  epRagged : Bool
  assignment : ExpertAssignment (routing (rankPlacement hworld hperRank d) (D.recv d).n rows)
  stale : StaleMemory K C

variable {hworld hperRank E D}

/-- `fused_expert_output` -/
def RankRun.expertOutput {d : Fin world} (run : RankRun hworld hperRank (C := C) D d)
    (E : LayerExperts X K N C H) : Fin (D.recv d).n → Fin H → K :=
  (E.call (rankPlacement hworld hperRank d) (D.recv d).n run.rows (D.expertX d)
    run.epFastSiluMode run.fastSiluSupported).apply E.quant .blockFp8 run.assignment run.stale
      run.epRagged

/-- What `buffer.combine` gives the ranks back for their tokens, of one row for every row that they
have received. -/
abbrev CombineKernel (D : Dispatch b perRank) (H : ℕ) : Type :=
  (∀ d, Fin (D.recv d).n → Fin H → K) → Fin world → ℕ → Fin H → K

/-- The combine adds up, without weights, the rows at which the ranks have received a token. -/
def SumsRows (combine : CombineKernel D H) : Prop :=
  ∀ rows q, ∀ t < b.numTokens q, ∀ h, combine rows q t h =
    ∑ d, ∑ r : Fin (D.recv d).n,
      if (D.received d)[(r : ℕ)]? = some (q, t) then rows d r h else 0

/-- `combined_x` -/
def combinedX (combine : CombineKernel D H) (runs : ∀ d, RankRun hworld hperRank (C := C) D d)
    (E : LayerExperts X K N C H) : Fin world → ℕ → Fin H → K :=
  combine fun d => (runs d).expertOutput E

/-- The layer on one rank with all experts. -/
def denseOutput (b : Batches world X K) (E : LayerExperts X K N C H) (q : Fin world) (t : ℕ)
    (h : Fin H) : K :=
  ∑ k ∈ Finset.range b.topK, b.topkWeights q t k * E.expertRow (b.topkIds q t k) (b.tokens q t) h

end Finalize

/-! ## What a rank makes of the rows it receives -/

section RankOutput

variable {world perRank : ℕ} {X K : Type} [Field K] [LinearOrder K] {N C H : ℕ}
  {b : Batches world X K} {hworld : 2 ≤ world} {hperRank : 0 < perRank} {D : Dispatch b perRank}
  {d : Fin world} {E : LayerExperts X K N C H}

omit [Field K] [LinearOrder K] in
/-- The pad-aware kernels skip the slots that the expert map sends to `-1`. -/
lemma owned_routing (P : Placement) (n : ℕ) (rows : TopkRows K) (i : ℕ) :
    (routing P n rows).owned i =
      decide (P.expertMap (rows.ids (i / rows.width) (i % rows.width)) ≠ -1) := by
  have key : ∀ id : ℤ, (decide (0 ≤ id) && decide (0 ≤ P.expertMap id.toNat)) =
      decide (P.expertMap id ≠ -1) := by
    intro id
    unfold Placement.expertMap
    by_cases hid : (0 : ℤ) ≤ id
    · rw [Int.toNat_of_nonneg hid]
      split_ifs with hin
      · rw [decide_eq_true hid, Bool.true_and]
        exact decide_eq_decide.mpr ⟨fun _ => by omega, fun _ => by omega⟩
      · simp
    · rw [if_neg (by omega : ¬ ((P.offset : ℤ) ≤ id ∧ id < P.offset + P.count))]
      simp [hid]
  exact key _

omit [LinearOrder K] in
/-- A sum over the part of a list that a test keeps. -/
lemma sum_filter_map {α : Type*} (n : ℕ) (g : ℕ → α) (p : α → Bool) (f : α → K) :
    ((((List.range n).map g).filter p).map f).sum =
      ∑ k ∈ Finset.range n, if p (g k) then f (g k) else 0 := by
  induction n with
  | zero => rfl
  | succ n ih =>
    rw [List.range_succ, List.map_append, List.filter_append, List.map_append, List.sum_append, ih,
      Finset.sum_range_succ]
    congr 1
    by_cases hp : p (g n) = true <;> simp [hp]

omit [LinearOrder K] in
/-- The pad-aware sum of a token. -/
lemma moeSum_eq_sum {r : SlotRouting} (call : TritonCall K r N C H)
    (hadd : ∀ x y, call.add x y = x + y) (cache3 : ℕ → K) (t : ℕ) (h : Fin H) :
    call.moeSum true cache3 t h = ∑ k ∈ Finset.range r.topK,
      if r.owned (t * r.topK + k) then readRow H cache3 (t * r.topK + k) h else 0 := by
  have key : ∀ n, ((List.range n).foldl (fun acc k =>
      if true && !r.owned (t * r.topK + k) then acc
      else fun j => call.add (acc j) (readRow H cache3 (t * r.topK + k) j)) 0) h =
        ∑ k ∈ Finset.range n,
          if r.owned (t * r.topK + k) then readRow H cache3 (t * r.topK + k) h else 0 := by
    intro n
    induction n with
    | zero => rfl
    | succ n ih =>
      rw [List.range_succ, List.foldl_append, Finset.sum_range_succ, ← ih]
      cases howned : r.owned (t * r.topK + n) <;> simp [howned, hadd]
  exact key r.topK

/-- The weighted row of a slot. -/
def LayerExperts.slotRow (E : LayerExperts X K N C H) (P : Placement) (x : X) (s : ℤ × Option K) :
    Fin H → K := fun h => s.2.getD 1 * E.expertRow (slabExpert P s.1) x h

/-- The Triton experts make of a row the weighted rows of the slots that the map keeps, in every
mode and on either grid. -/
lemma LayerExperts.apply_call (P : Placement) (n : ℕ) (rows : TopkRows K) (x : ℕ → X)
    (epFastSiluMode : ℕ) (fastSiluSupported : Bool)
    (assignment : ExpertAssignment (routing P n rows)) (stale : StaleMemory K C) (epRagged : Bool)
    (t : Fin n) (h : Fin H) :
    (E.call P n rows x epFastSiluMode fastSiluSupported).apply E.quant .blockFp8 assignment stale
        epRagged t h =
      ((rows.kept P t).map fun s => E.slotRow P (x t) s h).sum := by
  unfold TopkRows.kept TopkRows.slots
  rw [TritonCall.apply_eq_ownedOutput, sum_filter_map]
  unfold TritonCall.ownedOutput
  rw [moeSum_eq_sum _ fun _ _ => rfl]
  refine Finset.sum_congr rfl fun k hk => ?_
  have hk := Finset.mem_range.mp hk
  have hslot : (t : ℕ) * rows.width + k < n * rows.width := Loops.rowMajor_lt t.isLt hk
  have hdiv : ((t : ℕ) * rows.width + k) / rows.width = t := Loops.rowMajor_div hk
  have hmod : ((t : ℕ) * rows.width + k) % rows.width = k := Loops.rowMajor_mod hk
  have hwidth : (routing P n rows).topK = rows.width := rfl
  rw [readRow_fillRows, hwidth, if_pos (List.mem_range.mpr (by exact hslot)), owned_routing, hdiv,
    hmod]
  refine if_congr Iff.rfl ?_ rfl
  have hquant : ∀ i, (E.call P n rows x epFastSiluMode fastSiluSupported).ownedQuant E.quant i =
      E.quantized (E.w13 (slabExpert P (rows.ids (i / rows.width) (i % rows.width)))
        (x (i / rows.width))) := by
    intro i
    simp [TritonCall.ownedQuant, TritonCall.fusesSilu, TritonCall.upRow, LayerExperts.call,
      LayerExperts.quantized]
  rw [hquant, hdiv, hmod]
  cases hweights : rows.weights <;>
    simp [TritonCall.downRow, LayerExperts.call, LayerExperts.slotRow, LayerExperts.expertRow,
      hweights, hdiv, hmod]

omit [LinearOrder K] in
/-- The ids that a rank receives are its local ones. -/
lemma local_recv : (D.recv d).Local (rankPlacement hworld hperRank d) := by
  intro r _ c _
  simp only [Dispatch.recv]
  cases (D.received d)[r]? with
  | none => exact Or.inl rfl
  | some token =>
    simp only
    split_ifs
    · exact Or.inr ⟨Int.natCast_nonneg _, Int.ofNat_lt.mpr (Nat.mod_lt _ hperRank)⟩
    · exact Or.inl rfl

omit [LinearOrder K] in
/-- What the receiver hands to the experts keeps the received slots. -/
lemma RankRun.kept_rows (run : RankRun hworld hperRank (C := C) D d) {r : ℕ}
    (hr : r < (D.recv d).n) : run.rows.kept (rankPlacement hworld hperRank d) r =
      ((D.recv d).owned r).map ((D.recv d).pair (rankPlacement hworld hperRank d) r) := by
  have hrows := run.receiver_eq
  by_cases hfull : 0 < (D.recv d).full
  · have hcompiles : run.compact = 1 → arangeCompiles (D.recv d).full = true := by
      intro hone
      by_contra hnot
      simp [receiverTopk, compactExpertTopk, hone, Nat.pos_of_ne_zero (Nat.ne_zero_of_lt hr), hfull,
        hnot] at hrows
    obtain ⟨rows, heq, hpreserves⟩ := receiver_preserves _ (D.recv d) local_recv
      (Nat.mul_pos (Nat.zero_lt_of_lt hr) hfull) run.order_perm hcompiles
    rw [← Option.some.inj (heq.symm.trans hrows)]
    exact hpreserves.owned r hr
  · have hdefault : run.rows = defaultExpertTopk (D.recv d)
        (rankPlacement hworld hperRank d).numExperts (rankPlacement hworld hperRank d).offset := by
      simpa [receiverTopk, hfull, eq_comm] using hrows
    rw [hdefault]
    exact kept_default local_recv hr

/-- The local id of an expert and its rank give its global id. -/
lemma slabExpert_local {e : ℕ} (he : e / perRank = d) :
    slabExpert (rankPlacement hworld hperRank d) (((e % perRank : ℕ) : ℤ) + (d * perRank : ℕ)) =
      e := by
  have hmap := (rankPlacement hworld hperRank d).expertMap_add (Int.natCast_nonneg (e % perRank))
    (Int.ofNat_lt.mpr (Nat.mod_lt _ hperRank))
  have hoffset : (rankPlacement hworld hperRank d).offset = d * perRank := rfl
  rw [hoffset] at hmap
  rw [slabExpert, hmap, hoffset, Int.toNat_natCast, ← he, Nat.div_add_mod']

/-- A rank makes of a token the weighted rows of its own experts. -/
lemma RankRun.expertOutput_received (run : RankRun hworld hperRank (C := C) D d)
    (r : Fin (D.recv d).n) {q : Fin world} {t : ℕ} (hr : (D.received d)[(r : ℕ)]? = some (q, t))
    (h : Fin H) : run.expertOutput E r h = ∑ k ∈ Finset.range b.topK,
      if b.topkIds q t k / perRank = d then
        b.topkWeights q t k * E.expertRow (b.topkIds q t k) (b.tokens q t) h else 0 := by
  have hsum := sum_filter_map b.topK (fun k => k) ((D.recv d).valid r) fun k =>
    E.slotRow (rankPlacement hworld hperRank d) (D.expertX d r)
      ((D.recv d).pair (rankPlacement hworld hperRank d) r k) h
  rw [List.map_id'] at hsum
  have happly : run.expertOutput E r h = _ := E.apply_call _ _ _ _ _ _ _ _ _ r h
  rw [happly, run.kept_rows r.isLt, List.map_map]
  refine hsum.trans (Finset.sum_congr rfl fun k _ => ?_)
  by_cases hk : b.topkIds q t k / perRank = d
  · have hids : (D.recv d).ids r k = ((b.topkIds q t k % perRank : ℕ) : ℤ) := by
      simp [Dispatch.recv, hr, hk]
    have hvalid : (D.recv d).valid r k = true := valid_eq_true.mpr (by rw [hids]; omega)
    have hx : D.expertX d r = b.tokens q t := by simp [Dispatch.expertX, hr]
    have hslab : slabExpert (rankPlacement hworld hperRank d)
        (((b.topkIds q t k % perRank : ℕ) : ℤ) + (d * perRank : ℕ)) = b.topkIds q t k :=
      slabExpert_local hk
    rw [if_pos hvalid, if_pos hk]
    simp only [LayerExperts.slotRow, Received.pair, hids, hx]
    rw [show ((rankPlacement hworld hperRank d).offset : ℤ) = (d * perRank : ℕ) from rfl, hslab]
    simp [Dispatch.recv, hr, hk]
  · have hvalid : (D.recv d).valid r k = false :=
      valid_eq_false.mpr (by simp [Dispatch.recv, hr, hk])
    rw [if_neg hk, hvalid]
    rfl

/-- What a rank adds to the output of a token. -/
lemma sum_expertOutput (run : RankRun hworld hperRank (C := C) D d) {q : Fin world} {t : ℕ}
    (ht : t < b.numTokens q) (h : Fin H) :
    (∑ r : Fin (D.recv d).n,
      if (D.received d)[(r : ℕ)]? = some (q, t) then run.expertOutput E r h else 0) =
    ∑ k ∈ Finset.range b.topK, if b.topkIds q t k / perRank = d then
      b.topkWeights q t k * E.expertRow (b.topkIds q t k) (b.tokens q t) h else 0 := by
  by_cases hmem : (q, t) ∈ D.received d
  · obtain ⟨i, hi, hget⟩ := List.mem_iff_getElem.mp hmem
    have hn : i < (D.recv d).n := Nat.lt_add_right _ hi
    have hrow : (D.received d)[i]? = some (q, t) := by rw [List.getElem?_eq_getElem hi, hget]
    rw [Finset.sum_eq_single (⟨i, hn⟩ : Fin (D.recv d).n)]
    · rw [if_pos hrow]
      exact run.expertOutput_received ⟨i, hn⟩ hrow h
    · -- a rank receives a token once
      intro r _ hne
      refine if_neg fun hr => hne (Fin.ext ?_)
      obtain ⟨hlt, hr⟩ := List.getElem?_eq_some_iff.mp hr
      exact (D.nodup d).getElem_inj_iff.mp (hr.trans hget.symm)
    · exact fun hnot => absurd (Finset.mem_univ _) hnot
  · have hnone : ∀ k < b.topK, b.topkIds q t k / perRank ≠ d := fun k hk hrank =>
      hmem ((D.mem_received d q t).mpr ⟨ht, k, hk, hrank⟩)
    rw [Finset.sum_eq_zero fun r _ => if_neg fun hr => hmem (List.mem_of_getElem? hr)]
    exact (Finset.sum_eq_zero fun k hk => if_neg (hnone k (Finset.mem_range.mp hk))).symm

omit [LinearOrder K] in
/-- The receiver hands out rows in every mode that compiles. -/
lemma exists_receiverTopk (D : Dispatch b perRank) (d : Fin world) {compact : ℤ} {order : List ℕ}
    (horder : order.Perm (List.range (((D.recv d).n + 127) / 128)))
    (hcompiles : compact = 1 → arangeCompiles b.topK = true) :
    ∃ rows, receiverTopk (D.recv d) (rankPlacement hworld hperRank d).numExperts
      (rankPlacement hworld hperRank d).offset compact order = some rows := by
  by_cases hnumel : 0 < (D.recv d).n * (D.recv d).full
  · obtain ⟨rows, hrows, -⟩ := receiver_preserves (rankPlacement hworld hperRank d) (D.recv d)
      local_recv hnumel horder hcompiles
    exact ⟨rows, hrows⟩
  · exact ⟨_, if_neg fun h => hnumel h.2⟩

end RankOutput

section Layer

variable {world perRank : ℕ} {X K : Type} [Field K] [LinearOrder K] {N C H : ℕ}

/-- The ids are those of experts. -/
def Batches.IdsBelow (b : Batches world X K) (numExperts : ℕ) : Prop :=
  ∀ q, ∀ t < b.numTokens q, ∀ k < b.topK, b.topkIds q t k < numExperts

omit [LinearOrder K] in
/-- Every expert is on one rank. -/
lemma sum_ranks_expert {e : ℕ} (he : e < world * perRank) (v : K) :
    (∑ d : Fin world, if e / perRank = d then v else 0) = v := by
  have hrank : e / perRank < world := Nat.div_lt_of_lt_mul (Nat.mul_comm world perRank ▸ he)
  rw [Finset.sum_eq_single (⟨_, hrank⟩ : Fin world)]
  · exact if_pos rfl
  · exact fun d _ hne => if_neg fun heq => hne (Fin.ext heq.symm)
  · exact fun hnot => absurd (Finset.mem_univ _) hnot

/-- The sum over the ranks of the weighted rows of their own experts. -/
lemma sum_ranks_denseOutput {b : Batches world X K} (hids : b.IdsBelow (world * perRank))
    (E : LayerExperts X K N C H) {q : Fin world} {t : ℕ} (ht : t < b.numTokens q) (h : Fin H) :
    (∑ d : Fin world, ∑ k ∈ Finset.range b.topK, if b.topkIds q t k / perRank = d then
      b.topkWeights q t k * E.expertRow (b.topkIds q t k) (b.tokens q t) h else 0) =
    denseOutput b E q t h := by
  rw [Finset.sum_comm]
  exact Finset.sum_congr rfl fun k hk =>
    sum_ranks_expert (hids q t ht k (Finset.mem_range.mp hk)) _

/-- The ranks together make of a token what one rank with all experts makes of it. -/
lemma combinedX_eq_denseOutput {hworld : 2 ≤ world} {hperRank : 0 < perRank}
    {b : Batches world X K} (hids : b.IdsBelow (world * perRank)) {D : Dispatch b perRank}
    {combine : CombineKernel D H} (hcombine : SumsRows combine)
    (runs : ∀ d, RankRun hworld hperRank (C := C) D d) (E : LayerExperts X K N C H) {q : Fin world}
    {t : ℕ} (ht : t < b.numTokens q) (h : Fin H) :
    combinedX combine runs E q t h = denseOutput b E q t h := by
  rw [combinedX, hcombine _ q t ht h, ← sum_ranks_denseOutput hids E ht h]
  exact Finset.sum_congr rfl fun d _ => sum_expertOutput (runs d) ht h

end Layer

/-- The ranks run in every mode that compiles: with `VLLM_EP_TOPK_COMPACT=1` the number of slots is
a power of two.  However they run, and whatever their memory holds, the combine gives a rank for
each of its tokens what one rank with all experts makes of the token. -/
theorem deepep_layer {world perRank : ℕ} {X K : Type} [Field K] [LinearOrder K] {N C H : ℕ}
    (hworld : 2 ≤ world) (hperRank : 0 < perRank) (b : Batches world X K)
    (hids : b.IdsBelow (world * perRank)) (D : Dispatch b perRank) (E : LayerExperts X K N C H)
    {combine : CombineKernel D H} (hcombine : SumsRows combine) :
    (∀ (d : Fin world) (compact : ℤ) (order : List ℕ),
      order.Perm (List.range (((D.recv d).n + 127) / 128)) →
      (compact = 1 → arangeCompiles b.topK = true) →
      ∃ run : RankRun hworld hperRank (C := C) D d, run.compact = compact ∧ run.order = order) ∧
    ∀ (runs : ∀ d, RankRun hworld hperRank (C := C) D d) (q : Fin world), ∀ t < b.numTokens q,
      ∀ h, combinedX combine runs E q t h = denseOutput b E q t h := by
  constructor
  · intro d compact order horder hcompiles
    obtain ⟨rows, hrows⟩ : ∃ rows, receiverTopk (D.recv d)
        (rankPlacement hworld hperRank d).numExperts (rankPlacement hworld hperRank d).offset
          compact order = some rows := exists_receiverTopk D d horder hcompiles
    exact ⟨⟨compact, order, horder, rows, hrows, 0, false, false, .ofRange _,
      ⟨fun _ => 0, fun _ => 0, fun _ => ⟨fun _ => 0, fun _ => 0⟩⟩⟩, rfl, rfl⟩
  · exact fun runs q t ht h => combinedX_eq_denseOutput hids hcombine runs E ht h

/-! ### Two ranks with two experts each -/

section TwoRanks

/-- There are two ranks. -/
lemma two_le_ranks : 2 ≤ 2 := le_rfl

/-- Each of them has an expert. -/
lemma zero_lt_experts : 0 < 2 := by decide

/-- A token on each rank, with an expert of each rank. -/
def crossedBatches : Batches 2 ℚ ℚ where
  numTokens _ := 1
  topK := 2
  tokens q _ := q + 1
  topkIds q _ k := q + 2 * k
  topkWeights _ _ k := k + 1

/-- Both tokens go to both ranks, the later one first, with a worst-case row behind them. -/
def crossedDispatch : Dispatch crossedBatches 2 where
  received _ := (List.finRange 2).reverse.map fun q => (q, 0)
  nodup _ := by decide
  mem_received := by
    intro d q t
    have hmem : (q, t) ∈ (List.finRange 2).reverse.map (fun q => (q, 0)) ↔ t = 0 := by
      simp [eq_comm]
    rw [hmem]
    constructor
    · intro ht
      exact ⟨by simp [crossedBatches, ht], d, d.isLt, by simp only [crossedBatches]; omega⟩
    · exact fun ht => Nat.lt_one_iff.mp ht.1
  padding _ := 1
  paddingRow _ _ := 0

/-- Experts that scale their input. -/
def scalingExperts : LayerExperts ℚ ℚ 1 1 1 where
  w13 e x _ := e * x
  w2 e quantized h := e + quantized.values h
  activation row := row
  siluAndMulPerBlockQuant row := ⟨row, fun _ => 1⟩
  quant := sampleKernels
  a2Scale := 1
  isSilu := true
  deepGemmE8m0Used := false

/-- A combine for both ranks, which looks for a token among the rows of either one. -/
def crossedCombine : CombineKernel crossedDispatch 1 := fun rows q t h =>
  ∑ d, ∑ r, if (crossedDispatch.received d)[r.val]? = some (q, t) then rows d r h else 0

/-- It adds up the rows of a token. -/
lemma sumsRows_crossedCombine : SumsRows crossedCombine := fun _ _ _ _ _ => rfl

/-- The first rank narrows the rows with the kernels and the second one does not. -/
theorem deepep_layer_crossed :
    ∃ runs : ∀ d, RankRun (C := 1) two_le_ranks zero_lt_experts crossedDispatch d,
      (∀ d, (runs d).compact = if d = 0 then 1 else 0) ∧
      ∀ q h, combinedX crossedCombine runs scalingExperts q 0 h =
        denseOutput crossedBatches scalingExperts q 0 h := by
  have hlayer := deepep_layer two_le_ranks zero_lt_experts crossedBatches
    (by intro q t _ k hk; simp only [crossedBatches] at hk ⊢; omega) crossedDispatch scalingExperts
    sumsRows_crossedCombine
  have horder : ∀ d, [0] = List.range (((crossedDispatch.recv d).n + 127) / 128) := by decide
  have hrun := fun d : Fin 2 => hlayer.1 d (if d = 0 then 1 else 0) [0]
    (List.Perm.of_eq (horder d)) fun _ => by decide
  choose runs hruns using hrun
  exact ⟨runs, fun d => (hruns d).1, fun q h => hlayer.2 runs q 0 one_pos h⟩

end TwoRanks

end UnimonoMoe
