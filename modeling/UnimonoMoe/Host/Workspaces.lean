import UnimonoMoe.Host.FastSilu
import UnimonoMoe.Lib.MemoryRows

/-!
# The workspaces of the Triton experts

`_allocate_buffers` asks the workspace manager for two tensors and makes three of them: the second
intermediate tensor and the output lie at the same addresses, and `apply` puts the first and the
third intermediate tensor at the same addresses as well.  All layers of a model share the memory.

`_resize_cache`, which makes a tensor out of a workspace, is a parameter: `FirstElements` says what
the code relies on, that it returns the first elements of a tensor that has enough of them.

`fusedExperts` is the code on one flat memory, each kernel a loop over rows that reads what is there
by then.  `fused_experts_refines` connects it to `TritonCall.apply`, which has a buffer for every
workspace: every tensor that is resized has enough elements, the rows of the output are those of
`apply`, and nothing else is touched.  `layers_share_workspaces` is about a run of many layers.
-/

namespace UnimonoMoe

open RowBuffers

/-! ## Tensors in the memory -/

/-- A contiguous tensor: its first element in the memory and how many it has. -/
structure Span where
  base : ℕ
  numel : ℕ
deriving DecidableEq, Repr

/-- The tensor holds the element at an address. -/
def Span.Contains (s : Span) (p : ℕ) : Prop := s.base ≤ p ∧ p < s.base + s.numel

/-- Two tensors share no element. -/
def Span.Disjoint (s t : Span) : Prop :=
  s.base + s.numel ≤ t.base ∨ t.base + t.numel ≤ s.base

instance (s : Span) (p : ℕ) : Decidable (s.Contains p) := inferInstanceAs (Decidable (_ ∧ _))

instance (s t : Span) : Decidable (s.Disjoint t) := inferInstanceAs (Decidable (_ ∨ _))

/-- The start of a tensor shares no more than the tensor. -/
lemma Span.Disjoint.mono {s t : Span} {n : ℕ} (h : s.Disjoint t) (hn : n ≤ s.numel) :
    (Span.mk s.base n).Disjoint t := by
  unfold Span.Disjoint at h ⊢
  dsimp only
  omega

/-- `_resize_cache` gives the first elements of a tensor in another shape, if it has enough of them.
Of a tensor with fewer elements nothing is assumed. -/
def FirstElements (resizeCache : Span → List ℕ → Option Span) : Prop :=
  ∀ x shape, shape.prod ≤ x.numel → resizeCache x shape = some ⟨x.base, shape.prod⟩

/-- `adjust_N_for_activation` -/
def adjustNForActivation (N : ℕ) (isGated : Bool) : ℕ := if !isGated then N else N / 2

/-- `workspace_shapes` of the Triton experts. -/
def workspaceShapes (M N K topk : ℕ) (isGated : Bool) : List ℕ × List ℕ × List ℕ :=
  let activationOutDim := adjustNForActivation N isGated
  ([M, topk, max activationOutDim K], [M, topk, max N K], [M, K])

/-- The workspace manager at the time of a call: two tensors of the sizes asked for that share no
element. -/
structure WorkspaceManager where
  getSimultaneous : ℕ → ℕ → Span × Span
  numel_fst : ∀ m n, (getSimultaneous m n).1.numel = m
  numel_snd : ∀ m n, (getSimultaneous m n).2.numel = n
  disjoint : ∀ m n, (getSimultaneous m n).1.Disjoint (getSimultaneous m n).2

/-- `_allocate_buffers`, nothing when an assertion fails. -/
def allocateBuffers (resizeCache : Span → List ℕ → Option Span) (manager : WorkspaceManager)
    (MChunk MFull N K topK : ℕ) (isGated : Bool) : Option (Span × Span × Span) :=
  if 0 < MFull ∧ 0 < MChunk then do
    let (workspace13Shape, workspace2Shape, _) := workspaceShapes MChunk N K topK isGated
    let (_, _, fusedOutShape) := workspaceShapes MFull N K topK isGated
    let maxShapeSize := max workspace13Shape.prod fusedOutShape.prod
    let (commonWorkspace, workspace2) :=
      manager.getSimultaneous maxShapeSize workspace2Shape.prod
    let workspace13 ← resizeCache commonWorkspace workspace13Shape
    let fusedOut ← resizeCache commonWorkspace fusedOutShape
    return (workspace13, workspace2, fusedOut)
  else none

/-- The output tensor of the caller, and how it compares with `fused_out`. -/
structure OutputAlias where
  base : ℕ
  shape : List ℕ
  sameDtype : Bool
  sameDevice : Bool
  isContiguous : Bool

/-- The elements of the output tensor. -/
def OutputAlias.span (output : OutputAlias) : Span := ⟨output.base, output.shape.prod⟩

/-- `use_output_alias` -/
def useOutputAlias (output : OutputAlias) (fusedOutShape : List ℕ) : Bool :=
  decide (output.shape = fusedOutShape) && output.sameDtype && output.sameDevice &&
    output.isContiguous

/-! ## `apply` in the memory -/

section Apply

variable {K : Type} [Field K] [LinearOrder K] {r : SlotRouting} {N C H : ℕ}

/-- What a call may do in any order, and what is in the tensors that it allocates. -/
structure ApplyRun (K : Type) (r : SlotRouting) (C : ℕ) where
  epRagged : Bool
  assignment : ExpertAssignment r
  empty : ℕ → QuantRow K C
  /-- the order in which the activation kernel writes the rows -/
  rows : List ℕ
  rows_perm : rows.Perm (List.range r.numSlots)
  /-- the order in which the final sum writes the rows -/
  tokens : List ℕ
  tokens_perm : tokens.Perm (List.range r.numTokens)

namespace TritonCall

variable (call : TritonCall K r N C H) (q : QuantKernels K) (scheme : QuantScheme)
  (run : ApplyRun K r C)

/-- A correction, added in place. -/
def addRowsAt {w : ℕ} (base : ℕ) (delta : (ℕ → K) → ℕ → Fin w → K) (mem : ℕ → K) : ℕ → K :=
  rowLoop base (List.range r.numSlots)
    (fun mem i c => call.add (readRow w (load base mem) i c) (delta mem i c)) mem

/-- The first GEMM with its correction, into `intermediate_cache1`. -/
def runW13 (cache1 : ℕ) (slots : List ℕ) (mem : ℕ → K) : ℕ → K :=
  let mem := rowLoop cache1 slots (fun _ i => if r.owned i then call.w13 i else 0) mem
  match call.lora with
  | none => mem
  | some lora => call.addRowsAt cache1 (fun _ => lora.w13Delta) mem

/-- The activation, into `intermediate_cache2`.  The fused kernel does not use that tensor. -/
def runActivation (cache1 cache2 : ℕ) (mem : ℕ → K) : ℕ → K :=
  if call.fusesSilu scheme then mem
  else rowLoop cache2 run.rows (fun mem i => call.activation (readRow N (load cache1 mem) i)) mem

/-- `qintermediate_cache2`: tensors of their own, filled when the memory was `filled`, except that
an unquantized layer reads `intermediate_cache2` itself. -/
def quantizedAt (cache1 cache2 : ℕ) (filled mem : ℕ → K) : ℕ → QuantRow K C :=
  if call.fusesSilu scheme then fun i =>
    if call.skipsRow i then run.empty i
    else call.siluAndMulPerBlockQuant (readRow N (load cache1 filled) i)
  else q.quantizeInput scheme call.a2Scale r.numSlots
    (readRow C (load cache2 (if scheme = .unquantized then mem else filled)))

/-- The second GEMM with its correction, into `intermediate_cache3`. -/
def runW2 (cache2 cache3 : ℕ) (slots : List ℕ) (quantized : (ℕ → K) → ℕ → QuantRow K C)
    (mem : ℕ → K) : ℕ → K :=
  let mem := rowLoop cache3 slots
    (fun mem i => if r.owned i then call.w2 i (quantized mem i) else 0) mem
  match call.lora with
  | none => mem
  | some lora =>
    call.addRowsAt cache3 (fun mem i => lora.w2Delta i (readRow C (load cache2 mem) i)) mem

/-- `moe_sum`, into the output. -/
def runSum (cache3 output : ℕ) (mem : ℕ → K) : ℕ → K :=
  rowLoop output run.tokens (fun mem t => call.moeSum run.epRagged (load cache3 mem) t) mem

/-- `TritonExperts.apply` on the memory, nothing when an assertion fails. -/
def applyAt (resizeCache : Span → List ℕ → Option Span) (output workspace13 workspace2 : Span)
    (mem : ℕ → K) : Option (ℕ → K) := do
  let cache1 ← resizeCache workspace2 [r.numTokens, r.topK, N]
  let cache2 ← resizeCache workspace13 [r.numTokens * r.topK, C]
  let cache3 ← resizeCache workspace2 [r.numTokens, r.topK, H]
  let slots := run.assignment.slots run.epRagged
  let mem := call.runW13 cache1.base slots mem
  let mem := call.runActivation scheme run cache1.base cache2.base mem
  let mem := call.runW2 cache2.base cache3.base slots
    (call.quantizedAt q scheme run cache1.base cache2.base mem) mem
  return call.runSum run cache3.base output.base mem

end TritonCall

end Apply

/-! ## The kernels of `apply`, one after the other -/

section Kernels

variable {K : Type} [Field K] {r : SlotRouting} {N C H : ℕ} (call : TritonCall K r N C H)

namespace TritonCall

/-- A correction in place is a correction of the buffer. -/
lemma load_addRowsAt {w base : ℕ} {delta : (ℕ → K) → ℕ → Fin w → K} {mem : ℕ → K}
    (hdelta : ∀ mem', SameOutside base (r.numSlots * w) mem mem' → ∀ i < r.numSlots,
      delta mem' i = delta mem i) :
    load base (call.addRowsAt base delta mem) = call.addRows (delta mem) (load base mem) :=
  load_rowLoop_of_nodup (fun _ => List.mem_range.mp) List.nodup_range fun mem' hsame i hi hrow => by
    funext c
    rw [hrow, hdelta mem' hsame i (List.mem_range.mp hi)]

/-- A correction changes the rows of its tensor only. -/
lemma addRowsAt_frame {w base : ℕ} {delta : (ℕ → K) → ℕ → Fin w → K} {mem : ℕ → K} :
    SameOutside base (r.numSlots * w) mem (call.addRowsAt base delta mem) :=
  rowLoop_frame fun _ => List.mem_range.mp

variable (assignment : ExpertAssignment r) (epRagged : Bool)

/-- The slots of the blocks are slots. -/
lemma slots_lt : ∀ i ∈ assignment.slots epRagged, i < r.numSlots := fun i hi =>
  ((assignment.mem_slots epRagged i).mp hi).1

/-- The first GEMM leaves the first intermediate tensor. -/
lemma load_runW13 (base : ℕ) (mem : ℕ → K) :
    load base (call.runW13 base (assignment.slots epRagged) mem) =
        call.intermediateCache1 (assignment.slots epRagged) (load base mem) ∧
      SameOutside base (r.numSlots * N) mem
        (call.runW13 base (assignment.slots epRagged) mem) := by
  have hslots := slots_lt assignment epRagged
  set row := fun (_ : ℕ → K) i => if r.owned i then call.w13 i else 0
  have hgemm : load base (rowLoop base (assignment.slots epRagged) row mem) =
      fillRows (load base mem) (assignment.slots epRagged) (row mem) :=
    load_rowLoop hslots fun _ _ _ _ => rfl
  have hframe : SameOutside base (r.numSlots * N) mem
      (rowLoop base (assignment.slots epRagged) row mem) := rowLoop_frame hslots
  unfold runW13 intermediateCache1
  cases call.lora with
  | none => exact ⟨hgemm, hframe⟩
  | some lora =>
    refine ⟨?_, hframe.trans call.addRowsAt_frame⟩
    refine (call.load_addRowsAt fun _ _ _ _ => rfl).trans ?_
    rw [hgemm]
    rfl

end TritonCall

end Kernels

section Areas

variable {K : Type} [Field K] [LinearOrder K] {r : SlotRouting} {N C H : ℕ}
  (call : TritonCall K r N C H) (q : QuantKernels K) (scheme : QuantScheme)
  (run : ApplyRun K r C)

/-- The tensors that `apply` is given are large enough, and the second workspace shares nothing with
the first one or with the output. -/
structure Areas (r : SlotRouting) (N C H : ℕ) (output workspace13 workspace2 : Span) : Prop where
  cache1_le : r.numSlots * N ≤ workspace2.numel
  cache2_le : r.numSlots * C ≤ workspace13.numel
  cache3_le : r.numSlots * H ≤ workspace2.numel
  output_le : r.numTokens * H ≤ output.numel
  workspaces : workspace13.Disjoint workspace2
  output_workspace2 : output.Disjoint workspace2

/-- The scheme quantizes the rows of the tensor. -/
lemma quantizeInput_congr {a2Scale : K} {numRows : ℕ} {rows rows' : ℕ → Fin C → K}
    (h : ∀ i < numRows, rows i = rows' i) {i : ℕ} (hi : i < numRows) :
    q.quantizeInput scheme a2Scale numRows rows i =
      q.quantizeInput scheme a2Scale numRows rows' i := by
  cases scheme with
  | unquantized => exact congrArg (fun row => QuantRow.mk row fun _ => 1) (h i hi)
  | blockFp8 => exact congrArg (q.rowQuant .blockFp8 C) (h i hi)
  | perTokenDynamic => exact congrArg (q.rowQuant .perTokenDynamic C) (h i hi)
  | perTensorStatic => exact congrArg (q.scaled a2Scale) (h i hi)
  | perTensorDynamic =>
    exact congrArg₂ q.scaled (TritonCall.tensorScale_congr q h) (h i hi)

variable {output workspace13 workspace2 : Span}
  (areas : Areas r N C H output workspace13 workspace2) (mem : ℕ → K)

include areas

namespace TritonCall

omit [LinearOrder K] in
/-- The activation leaves the second intermediate tensor and the first workspace is all it
changes. -/
lemma runActivation_spec :
    let after := call.runActivation scheme run workspace2.base workspace13.base mem
    (call.fusesSilu scheme = false → ∀ i < r.numSlots,
      readRow C (load workspace13.base after) i =
        call.activation (readRow N (load workspace2.base mem) i)) ∧
      SameOutside workspace13.base (r.numSlots * C) mem after := by
  have hdisj := areas.workspaces
  have hcache1 := areas.cache1_le
  have hcache2 := areas.cache2_le
  unfold Span.Disjoint at hdisj
  have hrows : ∀ i ∈ run.rows, i < r.numSlots := fun i hi =>
    List.mem_range.mp (run.rows_perm.mem_iff.mp hi)
  intro after
  unfold after runActivation
  cases hfuses : call.fusesSilu scheme with
  | true => exact ⟨(nomatch ·), .refl _ _ _⟩
  | false =>
    refine ⟨fun _ i hi => ?_, rowLoop_frame hrows⟩
    refine readRow_rowLoop (load_rowLoop hrows fun mem' hsame j hj => ?_)
      (run.rows_perm.mem_iff.mpr (List.mem_range.mpr hi))
    exact congrArg call.activation (hsame.readRow_eq (hrows j hj) (by omega))

/-- The quantized rows, when the second GEMM reads them. -/
lemma quantizedAt_eq {filled : ℕ → K}
    (hsame : SameOutside workspace2.base (r.numSlots * H) filled mem) (cache1 workspace : ℕ → K)
    (hcache1 : ∀ i < r.numSlots, readRow N (load workspace2.base filled) i = readRow N cache1 i)
    (hcache2 : call.fusesSilu scheme = false → ∀ i < r.numSlots,
      readRow C (load workspace13.base filled) i = call.activation (readRow N cache1 i))
    {i : ℕ} (hi : i < r.numSlots) :
    call.quantizedAt q scheme run workspace2.base workspace13.base filled mem i =
      call.qintermediateCache2 q scheme run.empty cache1
        (call.intermediateCache2 cache1 workspace) i := by
  have hdisj := areas.workspaces
  have hle := areas.cache2_le
  have hle' := areas.cache3_le
  unfold Span.Disjoint at hdisj
  unfold quantizedAt qintermediateCache2
  cases hfuses : call.fusesSilu scheme with
  | true => simp only [if_true, hcache1 i hi]
  | false =>
    simp only [Bool.false_eq_true, if_false]
    refine quantizeInput_congr q scheme (fun j hj => ?_) hi
    rw [call.readRow_intermediateCache2 _ _ hj, ← hcache2 hfuses j hj]
    split_ifs
    · exact hsame.readRow_eq hj (by omega)
    · rfl

/-- The second GEMM leaves the rows of the third intermediate tensor. -/
lemma runW2_spec (cache1 workspace : ℕ → K)
    (hcache1 : ∀ i < r.numSlots, readRow N (load workspace2.base mem) i = readRow N cache1 i)
    (hcache1' : ∀ i < r.numSlots, readRow H (load workspace2.base mem) i = readRow H cache1 i)
    (hcache2 : call.fusesSilu scheme = false → ∀ i < r.numSlots,
      readRow C (load workspace13.base mem) i = call.activation (readRow N cache1 i)) :
    let slots := run.assignment.slots run.epRagged
    let after := call.runW2 workspace13.base workspace2.base slots
      (call.quantizedAt q scheme run workspace2.base workspace13.base mem) mem
    (∀ i < r.numSlots, readRow H (load workspace2.base after) i =
      readRow H (call.intermediateCache3 slots
        (call.qintermediateCache2 q scheme run.empty cache1
          (call.intermediateCache2 cache1 workspace))
        (call.intermediateCache2 cache1 workspace) cache1) i) ∧
      SameOutside workspace2.base (r.numSlots * H) mem after := by
  intro slots after
  have hdisj := areas.workspaces
  have hle := areas.cache2_le
  have hle' := areas.cache3_le
  unfold Span.Disjoint at hdisj
  have hslots := slots_lt run.assignment run.epRagged
  set quantized := call.quantizedAt q scheme run workspace2.base workspace13.base mem
  set cache2 := call.intermediateCache2 cache1 workspace
  have hquantized : ∀ mem', SameOutside workspace2.base (r.numSlots * H) mem mem' →
      ∀ i < r.numSlots, quantized mem' i =
        call.qintermediateCache2 q scheme run.empty cache1 cache2 i := fun mem' hsame i hi =>
    call.quantizedAt_eq q scheme run areas mem' hsame cache1 workspace hcache1 hcache2 hi
  set row := fun mem i => if r.owned i then call.w2 i (quantized mem i) else 0
  have hframe : SameOutside workspace2.base (r.numSlots * H) mem
      (rowLoop workspace2.base slots row mem) := rowLoop_frame hslots
  have hgemm : ∀ i < r.numSlots, readRow H (load workspace2.base
      (rowLoop workspace2.base slots row mem)) i =
        readRow H (groupedGemm (r := r) slots (fun i => call.w2 i
          (call.qintermediateCache2 q scheme run.empty cache1 cache2 i)) cache1) i := by
    intro i hi
    rw [load_rowLoop hslots fun mem' hsame j hj => ?_, readRow_fillRows, readRow_groupedGemm,
      hcache1' i hi]
    · simp only [row, hquantized mem (.refl _ _ _) i hi]
      rfl
    · simp only [row, hquantized mem' hsame j (hslots j hj),
        hquantized mem (.refl _ _ _) j (hslots j hj)]
  unfold after runW2 intermediateCache3
  cases hlora : call.lora with
  | none => exact ⟨hgemm, hframe⟩
  | some lora =>
    have hfuses : call.fusesSilu scheme = false := by simp [fusesSilu, hlora]
    have hrow : ∀ mem', SameOutside workspace2.base (r.numSlots * H) mem mem' →
        ∀ i < r.numSlots, readRow C (load workspace13.base mem') i = readRow C cache2 i := by
      intro mem' hsame i hi
      rw [hsame.readRow_eq hi (by omega), hcache2 hfuses i hi,
        call.readRow_intermediateCache2 _ _ hi]
    refine ⟨fun i hi => ?_, hframe.trans call.addRowsAt_frame⟩
    rw [call.load_addRowsAt fun mem' hsame j hj => ?_, readRow_addRows _ _ _ hi,
      readRow_addRows _ _ _ hi, hgemm i hi, hrow _ hframe i hi]
    rw [hrow _ (hframe.trans hsame) j hj, hrow _ hframe j hj]

omit [LinearOrder K] in
/-- The final sum leaves the rows of the output. -/
lemma runSum_spec {cache3 : ℕ → K}
    (hcache3 : ∀ i < r.numSlots, readRow H (load workspace2.base mem) i = readRow H cache3 i) :
    let after := call.runSum run workspace2.base output.base mem
    (∀ t < r.numTokens, readRow H (load output.base after) t = call.moeSum run.epRagged cache3 t) ∧
      SameOutside output.base (r.numTokens * H) mem after := by
  intro after
  have hdisj := areas.output_workspace2
  have hle := areas.output_le
  have hle' := areas.cache3_le
  unfold Span.Disjoint at hdisj
  have htokens : ∀ t ∈ run.tokens, t < r.numTokens := fun t ht =>
    List.mem_range.mp (run.tokens_perm.mem_iff.mp ht)
  have hsum : ∀ mem', SameOutside output.base (r.numTokens * H) mem mem' → ∀ t < r.numTokens,
      call.moeSum run.epRagged (load workspace2.base mem') t =
        call.moeSum run.epRagged cache3 t := by
    intro mem' hsame t ht
    refine List.foldl_ext _ _ 0 fun acc k hk => ?_
    have hi := slot_lt ⟨t, ht⟩ (List.mem_range.mp hk)
    rw [hsame.readRow_eq hi (by omega), hcache3 _ hi]
  unfold after runSum
  refine ⟨fun t ht => ?_, rowLoop_frame htokens⟩
  rw [readRow_rowLoop (load_rowLoop htokens fun mem' hsame t ht => ?_)
    (run.tokens_perm.mem_iff.mpr (List.mem_range.mpr ht))]
  · exact hsum mem (.refl _ _ _) t ht
  · exact (hsum mem' hsame t (htokens t ht)).trans (hsum mem (.refl _ _ _) t (htokens t ht)).symm

/-- `apply` on the memory does what `apply` does on buffers of its own: the rows of the output are
the same, and nothing outside the three tensors changes. -/
lemma applyAt_spec {resizeCache : Span → List ℕ → Option Span}
    (hresize : FirstElements resizeCache) : ∃ after,
    call.applyAt q scheme run resizeCache output workspace13 workspace2 mem = some after ∧
      (∀ t : Fin r.numTokens, readRow H (load output.base after) t =
        call.apply q scheme run.assignment
          ⟨load workspace13.base mem, load workspace2.base mem, run.empty⟩ run.epRagged t) ∧
      ∀ p, ¬ output.Contains p → ¬ workspace13.Contains p → ¬ workspace2.Contains p →
        after p = mem p := by
  have hdisj := areas.workspaces
  have hcache1 := areas.cache1_le
  have hcache2 := areas.cache2_le
  have hcache3 := areas.cache3_le
  have houtput := areas.output_le
  unfold Span.Disjoint at hdisj
  obtain ⟨hup, hupFrame⟩ := call.load_runW13 run.assignment run.epRagged workspace2.base mem
  set slots := run.assignment.slots run.epRagged
  set mem₁ := call.runW13 workspace2.base slots mem
  set cache1 := call.intermediateCache1 slots (load workspace2.base mem)
  obtain ⟨hact, hactFrame⟩ := call.runActivation_spec scheme run areas mem₁
  set mem₂ := call.runActivation scheme run workspace2.base workspace13.base mem₁
  obtain ⟨hdown, hdownFrame⟩ := call.runW2_spec q scheme run areas mem₂ cache1
    (load workspace13.base mem)
    (fun i hi => by rw [hactFrame.readRow_eq hi (by omega), hup])
    (fun i hi => by rw [hactFrame.readRow_eq hi (by omega), hup])
    (fun hfuses i hi => by rw [hact hfuses i hi, hup])
  set mem₃ := call.runW2 workspace13.base workspace2.base slots
    (call.quantizedAt q scheme run workspace2.base workspace13.base mem₂) mem₂
  obtain ⟨hsum, hsumFrame⟩ := call.runSum_spec run areas mem₃ hdown
  refine ⟨call.runSum run workspace2.base output.base mem₃, ?_, fun t => hsum t t.isLt, ?_⟩
  · have h₁ : [r.numTokens, r.topK, N].prod ≤ workspace2.numel := by
      simpa [SlotRouting.numSlots, Nat.mul_assoc] using hcache1
    have h₂ : [r.numTokens * r.topK, C].prod ≤ workspace13.numel := by
      simpa [SlotRouting.numSlots] using hcache2
    have h₃ : [r.numTokens, r.topK, H].prod ≤ workspace2.numel := by
      simpa [SlotRouting.numSlots, Nat.mul_assoc] using hcache3
    rw [applyAt, hresize _ _ h₁, hresize _ _ h₂, hresize _ _ h₃]
    rfl
  · intro p hout h13 h2
    unfold Span.Contains at hout h13 h2
    rw [hsumFrame p (by omega), hdownFrame p (by omega), hactFrame p (by omega),
      hupFrame p (by omega)]

end TritonCall

end Areas

/-! ## The call -/

/-- The output of a call: the tensor of the caller, if it looks like `fused_out`. -/
def aliasedOutput (outputAlias : Option OutputAlias) (M K : ℕ) (fusedOut : Span) : Span :=
  match outputAlias with
  | some output => if useOutputAlias output [M, K] then output.span else fusedOut
  | none => fusedOut

section Call

variable {K : Type} [Field K] [LinearOrder K] {r : SlotRouting} {N H : ℕ} {isGated : Bool}

/-- `_fused_experts`: the memory after the call and `fused_out`, nothing when an assertion fails.
A batch without tokens has an output without elements. -/
def TritonCall.fusedExperts (call : TritonCall K r N (adjustNForActivation N isGated) H)
    (q : QuantKernels K) (scheme : QuantScheme)
    (run : ApplyRun K r (adjustNForActivation N isGated))
    (resizeCache : Span → List ℕ → Option Span) (manager : WorkspaceManager)
    (outputAlias : Option OutputAlias) (mem : ℕ → K) : Option ((ℕ → K) × Span) :=
  if r.numTokens = 0 then some (mem, ⟨0, 0⟩)
  else do
    let (workspace13, workspace2, fusedOut) ←
      allocateBuffers resizeCache manager r.numTokens r.numTokens N H r.topK isGated
    let fusedOut := aliasedOutput outputAlias r.numTokens H fusedOut
    let mem ← call.applyAt q scheme run resizeCache fusedOut workspace13 workspace2 mem
    return (mem, fusedOut)

/-- The tensors that the manager hands out for a call: the common workspace and the second one. -/
def WorkspaceManager.granted (manager : WorkspaceManager) (r : SlotRouting) (N H : ℕ)
    (isGated : Bool) : Span × Span :=
  manager.getSimultaneous
    (max [r.numTokens, r.topK, max (adjustNForActivation N isGated) H].prod [r.numTokens, H].prod)
    [r.numTokens, r.topK, max N H].prod

section Granted

variable (manager : WorkspaceManager)

/-- The tensors that a call makes of the common workspace fit into it. -/
lemma prod_le_granted :
    [r.numTokens, r.topK, max (adjustNForActivation N isGated) H].prod ≤
        (manager.granted r N H isGated).1.numel ∧
      [r.numTokens, H].prod ≤ (manager.granted r N H isGated).1.numel := by
  have hnumel := manager.numel_fst
    (max [r.numTokens, r.topK, max (adjustNForActivation N isGated) H].prod [r.numTokens, H].prod)
    [r.numTokens, r.topK, max N H].prod
  exact ⟨(le_max_left _ _).trans hnumel.ge, (le_max_right _ _).trans hnumel.ge⟩

/-- What `_allocate_buffers` makes of the two tensors. -/
lemma allocateBuffers_eq {resizeCache : Span → List ℕ → Option Span}
    (hresize : FirstElements resizeCache) (hpos : 0 < r.numTokens) :
    allocateBuffers resizeCache manager r.numTokens r.numTokens N H r.topK isGated =
      some (⟨(manager.granted r N H isGated).1.base,
          [r.numTokens, r.topK, max (adjustNForActivation N isGated) H].prod⟩,
        (manager.granted r N H isGated).2,
        ⟨(manager.granted r N H isGated).1.base, [r.numTokens, H].prod⟩) := by
  have hbind : allocateBuffers resizeCache manager r.numTokens r.numTokens N H r.topK isGated =
      (resizeCache (manager.granted r N H isGated).1
        [r.numTokens, r.topK, max (adjustNForActivation N isGated) H]).bind fun workspace13 =>
          (resizeCache (manager.granted r N H isGated).1 [r.numTokens, H]).bind fun fusedOut =>
            some (workspace13, (manager.granted r N H isGated).2, fusedOut) :=
    if_pos ⟨hpos, hpos⟩
  rw [hbind, hresize _ _ (prod_le_granted manager).1, hresize _ _ (prod_le_granted manager).2]
  rfl

/-- The tensors of a call are large enough, and apart where they have to be. -/
lemma areas_granted {output : Span} (hnumel : output.numel = r.numTokens * H)
    (hdisjoint : output.Disjoint (manager.granted r N H isGated).2) :
    Areas r N (adjustNForActivation N isGated) H output
      ⟨(manager.granted r N H isGated).1.base,
        [r.numTokens, r.topK, max (adjustNForActivation N isGated) H].prod⟩
      (manager.granted r N H isGated).2 := by
  have hworkspace2 : (manager.granted r N H isGated).2.numel = r.numSlots * max N H := by
    rw [WorkspaceManager.granted, manager.numel_snd]
    simp [SlotRouting.numSlots, Nat.mul_assoc]
  have hworkspace13 : [r.numTokens, r.topK, max (adjustNForActivation N isGated) H].prod =
      r.numSlots * max (adjustNForActivation N isGated) H := by
    simp [SlotRouting.numSlots, Nat.mul_assoc]
  exact
    { cache1_le := hworkspace2 ▸ Nat.mul_le_mul_left _ (le_max_left N H)
      cache2_le := hworkspace13 ▸ Nat.mul_le_mul_left _ (le_max_left _ H)
      cache3_le := hworkspace2 ▸ Nat.mul_le_mul_left _ (le_max_right N H)
      output_le := hnumel.ge
      workspaces := (manager.disjoint _ _).mono (prod_le_granted manager).1
      output_workspace2 := hdisjoint }

end Granted

/-- The output that a call is given shares nothing with the workspaces. -/
def OutputApart (manager : WorkspaceManager) (r : SlotRouting) (N H : ℕ) (isGated : Bool)
    (output : Span) : Prop :=
  output.Disjoint (manager.granted r N H isGated).1 ∧
    output.Disjoint (manager.granted r N H isGated).2

instance (manager : WorkspaceManager) (output : Span) :
    Decidable (OutputApart manager r N H isGated output) := inferInstanceAs (Decidable (_ ∧ _))

/-- The output has the elements it needs and shares nothing with the second workspace. -/
lemma aliasedOutput_spec (manager : WorkspaceManager) (outputAlias : Option OutputAlias)
    (hapart : ∀ output ∈ outputAlias, OutputApart manager r N H isGated output.span) :
    let output := aliasedOutput outputAlias r.numTokens H
      ⟨(manager.granted r N H isGated).1.base, [r.numTokens, H].prod⟩
    output.numel = r.numTokens * H ∧ output.Disjoint (manager.granted r N H isGated).2 := by
  have hown : [r.numTokens, H].prod = r.numTokens * H ∧
      (Span.mk (manager.granted r N H isGated).1.base [r.numTokens, H].prod).Disjoint
        (manager.granted r N H isGated).2 :=
    ⟨by simp, (manager.disjoint _ _).mono (prod_le_granted manager).2⟩
  cases outputAlias with
  | none => exact hown
  | some output =>
    simp only [aliasedOutput]
    split_ifs with halias
    · have hshape : output.shape = [r.numTokens, H] := by
        simp only [useOutputAlias, Bool.and_eq_true, decide_eq_true_eq] at halias
        exact halias.1.1.1
      exact ⟨by simp [OutputAlias.span, hshape], (hapart output rfl).2⟩
    · exact hown

/-- On the memory that all calls share a call does what `apply` does on buffers of its own.  Every
tensor is resized to no more elements than it has, whatever the sizes, the rows of the output are
those of `apply`, though the output may lie where the second intermediate tensor was, and the
workspaces and the output are all that changes. -/
theorem fused_experts_refines {resizeCache : Span → List ℕ → Option Span}
    (hresize : FirstElements resizeCache)
    (call : TritonCall K r N (adjustNForActivation N isGated) H) (q : QuantKernels K)
    (scheme : QuantScheme) (run : ApplyRun K r (adjustNForActivation N isGated))
    (manager : WorkspaceManager) (outputAlias : Option OutputAlias)
    (hapart : ∀ output ∈ outputAlias, OutputApart manager r N H isGated output.span)
    (mem : ℕ → K) :
    let workspaces := manager.granted r N H isGated
    ∃ after fusedOut,
      call.fusedExperts q scheme run resizeCache manager outputAlias mem =
        some (after, fusedOut) ∧
      fusedOut.numel = r.numTokens * H ∧
      (0 < r.numTokens → ∀ output ∈ outputAlias, useOutputAlias output [r.numTokens, H] →
        fusedOut = output.span) ∧
      (∀ t : Fin r.numTokens, readRow H (load fusedOut.base after) t =
        call.apply q scheme run.assignment
          ⟨load workspaces.1.base mem, load workspaces.2.base mem, run.empty⟩ run.epRagged t) ∧
      ∀ p, ¬ fusedOut.Contains p → ¬ workspaces.1.Contains p → ¬ workspaces.2.Contains p →
        after p = mem p := by
  intro workspaces
  unfold TritonCall.fusedExperts
  by_cases hempty : r.numTokens = 0
  · rw [if_pos hempty]
    exact ⟨mem, ⟨0, 0⟩, rfl, by rw [hempty, Nat.zero_mul], fun hpos => absurd hempty hpos.ne',
      fun t => absurd t.isLt (by omega), fun _ _ _ _ => rfl⟩
  have hpos := Nat.pos_of_ne_zero hempty
  rw [if_neg hempty, allocateBuffers_eq manager hresize hpos]
  obtain ⟨hnumel, hdisjoint⟩ := aliasedOutput_spec manager outputAlias hapart
  set fusedOut := aliasedOutput outputAlias r.numTokens H
    ⟨(manager.granted r N H isGated).1.base, [r.numTokens, H].prod⟩
  obtain ⟨after, hafter, hrows, hframe⟩ :=
    call.applyAt_spec q scheme run (areas_granted manager hnumel hdisjoint) mem hresize
  refine ⟨after, fusedOut, ?_, hnumel, fun _ output houtput halias => ?_, hrows,
    fun p hout h13 h2 => hframe p hout (fun hp => h13 ?_) h2⟩
  · simp only [Option.bind_eq_bind, Option.bind_some]
    rw [hafter]
    rfl
  · obtain rfl := Option.mem_def.mp houtput
    exact if_pos halias
  · exact ⟨hp.1, hp.2.trans_le (Nat.add_le_add_left (prod_le_granted manager).1 _)⟩

end Call

/-! ## Many layers -/

section Layers

variable {K : Type} [Field K] [LinearOrder K]

/-- A call with its sizes, its weights and its batch, and what the host has at the time. -/
structure ExpertsLayer (K : Type) [Field K] [LinearOrder K] where
  routing : SlotRouting
  N : ℕ
  H : ℕ
  isGated : Bool
  call : TritonCall K routing N (adjustNForActivation N isGated) H
  quant : QuantKernels K
  scheme : QuantScheme
  run : ApplyRun K routing (adjustNForActivation N isGated)
  manager : WorkspaceManager
  output : OutputAlias

namespace ExpertsLayer

/-- The workspaces of a layer. -/
def granted (L : ExpertsLayer K) : Span × Span :=
  L.manager.granted L.routing L.N L.H L.isGated

/-- The layer leaves an address alone. -/
def Spares (L : ExpertsLayer K) (p : ℕ) : Prop :=
  ¬ L.output.span.Contains p ∧ ¬ L.granted.1.Contains p ∧ ¬ L.granted.2.Contains p

instance (L : ExpertsLayer K) (p : ℕ) : Decidable (L.Spares p) :=
  inferInstanceAs (Decidable (_ ∧ _))

/-- The memory after the layer. -/
def execute (resizeCache : Span → List ℕ → Option Span) (L : ExpertsLayer K) (mem : ℕ → K) :
    Option (ℕ → K) :=
  (L.call.fusedExperts L.quant L.scheme L.run resizeCache L.manager (some L.output) mem).map
    Prod.fst

/-- Row `t` of the output tensor. -/
def outputRow (L : ExpertsLayer K) (mem : ℕ → K) (t : ℕ) : Fin L.H → K :=
  readRow L.H (load L.output.base mem) t

/-- The output tensor holds what the layer computes, with some contents of the workspaces. -/
def Computed (L : ExpertsLayer K) (mem : ℕ → K) : Prop :=
  ∃ workspace13 workspace2 : ℕ → K, ∀ t : Fin L.routing.numTokens, L.outputRow mem t =
    L.call.apply L.quant L.scheme L.run.assignment ⟨workspace13, workspace2, L.run.empty⟩
      L.run.epRagged t

end ExpertsLayer

/-- The memory after one layer after the other. -/
def runLayers (resizeCache : Span → List ℕ → Option Span) :
    List (ExpertsLayer K) → (ℕ → K) → Option (ℕ → K)
  | [], mem => some mem
  | L :: layers, mem => (L.execute resizeCache mem).bind (runLayers resizeCache layers)

/-- The layers write their outputs to tensors of their own: every call is given an output that
matches `fused_out`, apart from the other outputs and from all workspaces. -/
structure OwnOutputs (layers : List (ExpertsLayer K)) : Prop where
  aliased : ∀ L ∈ layers, useOutputAlias L.output [L.routing.numTokens, L.H] = true
  apart : ∀ L ∈ layers, ∀ L' ∈ layers,
    OutputApart L.manager L.routing L.N L.H L.isGated L'.output.span
  disjoint : layers.Pairwise fun L L' => L.output.span.Disjoint L'.output.span

namespace ExpertsLayer

variable (L : ExpertsLayer K)

/-- An output tensor apart from what a layer uses is spared by it. -/
lemma spares_of_apart {p : ℕ} {output : Span} (hp : output.Contains p)
    (houtput : output.Disjoint L.output.span) (hapart : output.Disjoint L.granted.1 ∧
      output.Disjoint L.granted.2) : L.Spares p := by
  unfold Span.Disjoint at houtput hapart
  unfold Span.Contains at hp
  unfold Spares Span.Contains
  omega

/-- A layer computes its output and spares all that is not its own. -/
lemma execute_spec {resizeCache : Span → List ℕ → Option Span}
    (hresize : FirstElements resizeCache)
    (halias : useOutputAlias L.output [L.routing.numTokens, L.H] = true)
    (hapart : OutputApart L.manager L.routing L.N L.H L.isGated L.output.span) (mem : ℕ → K) :
    ∃ after, L.execute resizeCache mem = some after ∧ L.Computed after ∧
      ∀ p, L.Spares p → after p = mem p := by
  obtain ⟨after, fusedOut, hcall, hnumel, hout, hrows, hframe⟩ :=
    fused_experts_refines hresize L.call L.quant L.scheme L.run L.manager (some L.output)
      (fun output houtput => Option.some.inj houtput ▸ hapart) mem
  refine ⟨after, by rw [execute, hcall]; rfl,
    ⟨load L.granted.1.base mem, load L.granted.2.base mem, fun t => ?_⟩, fun p hp => ?_⟩
  · have hspan := hout (Nat.zero_lt_of_lt t.isLt) L.output rfl halias
    refine Eq.trans ?_ (hrows t)
    rw [hspan]
    rfl
  · rcases Nat.eq_zero_or_pos L.routing.numTokens with hempty | hpos
    · refine hframe p (fun hin => ?_) hp.2.1 hp.2.2
      unfold Span.Contains at hin
      rw [hnumel, hempty] at hin
      omega
    · exact hframe p (hout hpos L.output rfl halias ▸ hp.1) hp.2.1 hp.2.2

/-- An output that a run spares stays computed. -/
lemma Computed.of_spared {mem after : ℕ → K} (h : L.Computed mem)
    (halias : useOutputAlias L.output [L.routing.numTokens, L.H] = true)
    (hspared : ∀ p, L.output.span.Contains p → after p = mem p) : L.Computed after := by
  obtain ⟨workspace13, workspace2, hrows⟩ := h
  refine ⟨workspace13, workspace2, fun t => (hrows t).symm ▸ ?_⟩
  have hshape : L.output.shape = [L.routing.numTokens, L.H] := by
    simp only [useOutputAlias, Bool.and_eq_true, decide_eq_true_eq] at halias
    exact halias.1.1.1
  funext c
  have hlt : (t : ℕ) * L.H + c < L.routing.numTokens * L.H := Loops.rowMajor_lt t.isLt c.isLt
  refine hspared _ ⟨Nat.le_add_right _ _, Nat.add_lt_add_left ?_ _⟩
  simpa [OutputAlias.span, hshape] using hlt

/-- What the workspaces held does not matter to a block-quantized layer. -/
lemma Computed.eq_ownedOutput {mem : ℕ → K} (h : L.Computed mem) (hscheme : L.scheme = .blockFp8)
    (t : Fin L.routing.numTokens) : L.outputRow mem t = L.call.ownedOutput L.quant t := by
  obtain ⟨workspace13, workspace2, hrows⟩ := h
  rw [hrows t, hscheme, TritonCall.apply_eq_ownedOutput]

end ExpertsLayer

/-- The layers of a model use the same memory for their workspaces, each with its own sizes, and
with an output tensor of its own.  However the workspaces overlap, every tensor is resized to no
more elements than it has, at the end every output holds what its layer computes, and the rest of
the memory is untouched.  What a block-quantized layer computes is independent of everything that
has run before. -/
theorem layers_share_workspaces {resizeCache : Span → List ℕ → Option Span}
    (hresize : FirstElements resizeCache) (layers : List (ExpertsLayer K))
    (hown : OwnOutputs layers) (mem : ℕ → K) :
    ∃ after, runLayers resizeCache layers mem = some after ∧
      (∀ L ∈ layers, L.Computed after ∧ (L.scheme = .blockFp8 →
        ∀ t : Fin L.routing.numTokens, L.outputRow after t = L.call.ownedOutput L.quant t)) ∧
      ∀ p, (∀ L ∈ layers, L.Spares p) → after p = mem p := by
  have key : ∃ after, runLayers resizeCache layers mem = some after ∧
      (∀ L ∈ layers, L.Computed after) ∧ ∀ p, (∀ L ∈ layers, L.Spares p) → after p = mem p := by
    induction layers generalizing mem with
    | nil => exact ⟨mem, rfl, fun _ h => absurd h List.not_mem_nil, fun _ _ => rfl⟩
    | cons L layers ih =>
      have haliased := hown.aliased L List.mem_cons_self
      obtain ⟨hdisjoint, hrest⟩ := List.pairwise_cons.mp hown.disjoint
      obtain ⟨mem₁, hexecute, hcomputed, hframe⟩ := L.execute_spec hresize haliased
        (hown.apart L List.mem_cons_self L List.mem_cons_self) mem
      obtain ⟨after, hrun, hlayers, hspared⟩ := ih
        ⟨fun L' h => hown.aliased L' (List.mem_cons_of_mem L h),
          fun L' h L'' h' => hown.apart L' (List.mem_cons_of_mem L h) L''
            (List.mem_cons_of_mem L h'), hrest⟩ mem₁
      refine ⟨after, by rw [runLayers, hexecute]; exact hrun, fun L' hL' => ?_, fun p hp => ?_⟩
      · rcases List.mem_cons.mp hL' with rfl | hL'
        · -- the later layers spare the output of the first one
          refine hcomputed.of_spared L' haliased fun p hp => hspared p fun L'' hL'' => ?_
          exact L''.spares_of_apart hp (hdisjoint L'' hL'')
            (hown.apart L'' (List.mem_cons_of_mem _ hL'') L' List.mem_cons_self)
        · exact hlayers L' hL'
      · rw [hspared p fun L' hL' => hp L' (List.mem_cons_of_mem L hL'),
          hframe p (hp L List.mem_cons_self)]
  obtain ⟨after, hrun, hcomputed, hspared⟩ := key
  exact ⟨after, hrun, fun L hL => ⟨hcomputed L hL, (hcomputed L hL).eq_ownedOutput L⟩, hspared⟩

end Layers

/-! ### Two layers of different sizes in the same workspaces -/

section TwoLayers

/-- A manager that puts the second tensor behind the first one, from an address on. -/
def managerAt (base : ℕ) : WorkspaceManager where
  getSimultaneous m n := (⟨base, m⟩, ⟨base + m, n⟩)
  numel_fst _ _ := rfl
  numel_snd _ _ := rfl
  disjoint _ _ := Or.inl le_rfl

/-- `_resize_cache` with its assertion. -/
def checkedFirst (x : Span) (shape : List ℕ) : Option Span :=
  if shape.prod ≤ x.numel then some ⟨x.base, shape.prod⟩ else none

/-- It gives the first elements. -/
lemma firstElements_checkedFirst : FirstElements checkedFirst := fun _ _ h => if_pos h

/-- The slots in order. -/
lemma perm_sampleSlots : (List.range sampleSlotRouting.numSlots).Perm
    (List.range sampleSlotRouting.numSlots) := List.Perm.refl _

/-- The tokens in order. -/
lemma perm_sampleTokens : (List.range sampleSlotRouting.numTokens).Perm
    (List.range sampleSlotRouting.numTokens) := List.Perm.refl _

/-- One token with two slots, of which the rank owns the first, on rows of width `2 * n` with an
output at an address. -/
def sampleLayer (n output : ℕ) (epRagged : Bool) : ExpertsLayer ℚ where
  routing := sampleSlotRouting
  N := 2 * n
  H := 1
  isGated := true
  call :=
    { w13 := fun i c => i + c.val
      activation := fun row c => row ⟨c, c.isLt.trans_le (Nat.div_le_self _ _)⟩
      w2 := fun _ quantized _ => quantized.scales 0
      add := (· + ·)
      add_zero := Rat.add_zero
      a2Scale := 1
      lora := none
      isSilu := true
      deepGemmE8m0Used := false
      siluAndMulPerBlockQuant := fun row => ⟨fun c =>
        row ⟨c, c.isLt.trans_le (Nat.div_le_self _ _)⟩, fun _ => n⟩
      epFastSiluMode := 2
      fastSiluSupported := true }
  quant := sampleKernels
  scheme := .blockFp8
  run :=
    { epRagged := epRagged
      assignment := .ofRange sampleSlotRouting
      empty := fun _ => ⟨fun _ => 300, fun _ => 300⟩
      rows := List.range sampleSlotRouting.numSlots
      rows_perm := perm_sampleSlots
      tokens := List.range sampleSlotRouting.numTokens
      tokens_perm := perm_sampleTokens }
  manager := managerAt 10
  output := ⟨output, [1, 1], true, true, true⟩

/-- Address 0 keeps the output of the first layer, and address 5 what it held. -/
theorem layers_share_workspaces_sample : ∃ after,
    runLayers checkedFirst [sampleLayer 2 0 true, sampleLayer 3 1 false] (fun p => p) =
        some after ∧
      after 0 = 2 ∧ after 1 = 3 ∧ after 5 = 5 := by
  obtain ⟨after, hrun, hlayers, hspared⟩ := layers_share_workspaces firstElements_checkedFirst
    [sampleLayer 2 0 true, sampleLayer 3 1 false]
    ⟨by decide, by decide, by decide⟩ fun p => p
  have hfirst := (hlayers (sampleLayer 2 0 true) List.mem_cons_self).2 rfl ⟨0, one_pos⟩
  have hsecond := (hlayers (sampleLayer 3 1 false) (List.mem_cons_of_mem _ List.mem_cons_self)).2
    rfl ⟨0, one_pos⟩
  refine ⟨after, hrun, ?_, ?_, hspared 5 (by decide)⟩
  · exact (congrFun hfirst ⟨0, one_pos⟩).trans (by decide +kernel)
  · exact (congrFun hsecond ⟨0, one_pos⟩).trans (by decide +kernel)

end TwoLayers

end UnimonoMoe
