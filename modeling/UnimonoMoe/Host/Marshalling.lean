import UnimonoMoe.Host.Extents

/-!
# The argument list of a launch

The entry points of the binary are called through `ctypes`, which checks neither how many arguments
there are nor what they mean.  `Binary.signature` is the parameter list of each entry point in the
binary at hand, `prefillLaunch` is `prefillImpl` with the list that it passes, and
`moeMonokernelPrefillOut` is the wrapper around it.

`Marshalled` says that the list is what the entry point takes, position by position, and that
nothing the caller has supplied is dropped.  The list is built from optional groups;
`marshalled_iff` says exactly when they come out right.
-/

namespace UnimonoMoe

open Python

/-! ## Arguments and signatures -/

/-- The C types of the parameters. -/
inductive CType
  | pointer
  | int
  | sizeT
  | uint32
  | float
deriving DecidableEq, Repr

/-- An argument as `ctypes` passes it. -/
inductive CArg
  | pointer (address : ℕ)
  | int (value : ℤ)
  | sizeT (value : ℕ)
  | uint32 (value : ℕ)
  | float (value : Float32)
deriving DecidableEq

/-- The type of an argument. -/
def CArg.ctype : CArg → CType
  | .pointer _ => .pointer
  | .int _ => .int
  | .sizeT _ => .sizeT
  | .uint32 _ => .uint32
  | .float _ => .float

/-- `ctypes.c_void_p(x)`. -/
def cVoidP (x : ℤ) : CArg := .pointer (x % 2 ^ 64).toNat

/-- `ctypes.c_int(x)`. -/
def cIntArg (x : ℤ) : CArg := .int (toInt32 x)

/-- `ctypes.c_size_t(x)`. -/
def cSizeT (x : ℤ) : CArg := .sizeT (x % 2 ^ 64).toNat

/-- `ctypes.c_uint(x)`. -/
def cUint (x : ℤ) : CArg := .uint32 (x % 2 ^ 32).toNat

/-- `ctypes.c_float(x)`. -/
def cFloat (x : Float) : CArg := .float x.toFloat32

/-- The parameters of the entry points. -/
inductive Param
  | logits
  | numTokens
  | blockM
  | workspace
  | workspaceBytes
  | actBf16
  | actFp8
  | actScales
  | upWFp8
  | upWScales
  | downWFp8
  | downWScales
  | outputAccum
  | topkIds
  | topkWeights
  | sortedTokenIds
  | bf16Output
  | routerBias
  | tpMc
  | tpPads
  | tpRank
  | tpWorld
  | tpNchunk
  | tpNcomm
  | tpSeq
  | tpSeqctr
  | tpResidual
  | outScale
  | expertMap
  | stream
deriving DecidableEq, Repr

/-- The declared type of a parameter. -/
def Param.ctype : Param → CType
  | .numTokens | .blockM | .tpRank | .tpWorld | .tpNchunk | .tpNcomm => .int
  | .workspaceBytes => .sizeT
  | .tpSeq => .uint32
  | .outScale => .float
  | _ => .pointer

/-- The arguments that all entry points start with. -/
def leadingParams : List Param :=
  [.logits, .numTokens, .blockM, .workspace, .workspaceBytes, .actBf16, .actFp8, .actScales,
    .upWFp8, .upWScales, .downWFp8, .downWScales, .outputAccum, .topkIds, .topkWeights,
    .sortedTokenIds, .bf16Output]

/-- The parameters of the collective up to the host sequence value. -/
def tpParams : List Param :=
  [.tpMc, .tpPads, .tpRank, .tpWorld, .tpNchunk, .tpNcomm, .tpSeq]

/-- A loaded binary.  `devseq` is `prefill_wgmma_tp_has_devseq()`: its
`launch_prefill_moe_wgmma_q1_tp` takes the device sequence counter. -/
structure Binary extends Library where
  devseq : Bool
  workspaceBytes : ℕ

/-- The parameter list of an entry point. -/
def Binary.signature (lib : Binary) : EntryPoint → List Param
  | .q1 => leadingParams ++ [.stream]
  | .router => leadingParams ++ [.routerBias, .stream]
  | .tp =>
    leadingParams ++ .routerBias :: tpParams ++ (if lib.devseq then [.tpSeqctr] else []) ++
      [.stream]
  | .tp2 =>
    leadingParams ++ .routerBias :: tpParams ++ [.tpSeqctr, .tpResidual, .outScale, .stream]
  | .ep => leadingParams ++ [.routerBias, .expertMap, .stream]

/-! ## The calls -/

/-- `(mc_ptr, pads_ptr, seqctr_ptr, rank, world, nchunk, ncomm)`. -/
structure TpTuple where
  mc : ℤ
  pads : ℤ
  seqctr : ℤ
  rank : ℤ
  world : ℤ
  nchunk : ℤ
  ncomm : ℤ

/-- The addresses of the tensors of a launch, and its stream. -/
structure Buffers where
  logits : ℤ
  workspace : ℤ
  act : ℤ
  actFp8 : ℤ
  actScales : ℤ
  wUp : ℤ
  sUp : ℤ
  wDown : ℤ
  sDown : ℤ
  outputAccum : ℤ
  topkIds : ℤ
  topkWeights : ℤ
  sortedIds : ℤ
  out : ℤ
  bias : ℤ
  emap : ℤ
  stream : ℤ

/-- The arguments that both functions take. -/
structure PrefillInputs extends PrefillTensors where
  renormalize : Bool
  outScale : Float
  buffers : Buffers

/-- A call of `_moe_monokernel_prefill_impl`. -/
structure ImplCall extends PrefillInputs where
  tp : Option TpTuple
  expertMap : Option ExpertMap

/-- A call of `moe_monokernel_prefill_out`. -/
structure PrefillOutCall extends PrefillInputs where
  tpMcPtr : ℤ
  tpPadsPtr : ℤ
  tpSeqctrPtr : ℤ
  tpRank : ℤ
  tpWorld : ℤ
  tpNchunk : ℤ
  tpNcomm : ℤ

section Calls

variable (lib : Binary) (c : ImplCall)

/-- `float(out_scale) != 1.0` -/
def PrefillInputs.scaled (c : PrefillInputs) : Bool := c.outScale != 1.0

/-- `fold` -/
def PrefillInputs.fold (c : PrefillInputs) : Bool := c.residPtr != 0 || c.scaled

/-- The number of tokens, `activations_in.shape[0]`. -/
def PrefillInputs.numTokens (c : PrefillInputs) : ℕ := c.activations.shape.headD 0

/-- `_tp2_launch_args`. -/
def tp2LaunchArgs (tp : TpTuple) (residualPtr : ℤ) (outScale : Float) : List CArg :=
  [cVoidP tp.mc, cVoidP tp.pads, cIntArg tp.rank, cIntArg tp.world, cIntArg tp.nchunk,
    cIntArg tp.ncomm, cUint 0, cVoidP tp.seqctr, cVoidP residualPtr, cFloat outScale]

/-- `_tp_launch_args`. -/
def tpLaunchArgs (tp : TpTuple) : List CArg :=
  let args := [cVoidP tp.mc, cVoidP tp.pads, cIntArg tp.rank, cIntArg tp.world,
    cIntArg tp.nchunk, cIntArg tp.ncomm, cUint 0]
  if tp.seqctr ≠ 0 then args ++ [cVoidP tp.seqctr] else args

/-- What decides about the call. -/
def ImplCall.prefillCall (c : ImplCall) : PrefillCall where
  toPrefillTensors := c.toPrefillTensors
  tp := c.tp.isSome
  scaled := c.scaled
  expertMap := c.expertMap

/-- The arguments up to `out.data_ptr()`. -/
def leadingArgs (m : ℕ) : List CArg :=
  [cVoidP c.buffers.logits, cIntArg m, cIntArg 64, cVoidP c.buffers.workspace,
    cSizeT lib.workspaceBytes, cVoidP c.buffers.act, cVoidP c.buffers.actFp8,
    cVoidP c.buffers.actScales, cVoidP c.buffers.wUp, cVoidP c.buffers.sUp, cVoidP c.buffers.wDown,
    cVoidP c.buffers.sDown, cVoidP c.buffers.outputAccum, cVoidP c.buffers.topkIds,
    cVoidP c.buffers.topkWeights, cVoidP c.buffers.sortedIds, cVoidP c.buffers.out]

/-- The slot of the correction bias: an explicit null where the entry point takes it
unconditionally. -/
def biasArgs : List CArg :=
  if c.tp.isSome ∨ c.expertMap.isSome then
    [cVoidP (if c.bias.isSome then c.buffers.bias else 0)]
  else if c.bias.isSome then [cVoidP c.buffers.bias]
  else []

/-- The arguments of the collective, or the map. -/
def groupArgs : List CArg :=
  match c.tp with
  | some tp => if c.fold then tp2LaunchArgs tp c.residPtr c.outScale else tpLaunchArgs tp
  | none => if c.expertMap.isSome then [cVoidP c.buffers.emap] else []

/-- The argument list. -/
def launchArgs (m : ℕ) : List CArg :=
  leadingArgs lib c m ++ biasArgs c ++ groupArgs c ++ [cVoidP c.buffers.stream]

/-- `_moe_monokernel_prefill_impl` up to the call of the entry point: the entry point and the list
it is called with, or the error raised before. -/
def prefillLaunch : Except PrefillError (EntryPoint × List CArg) := do
  let (entry, o) ← prefillImpl lib.toLibrary c.prefillCall
  .ok (entry, launchArgs lib c o.tokens)

/-- `_moe_monokernel_prefill_impl` after the entry point has returned `rc`. -/
def afterLaunch (rc : ℤ) : CallOutcome := afterEntry lib.geo c.renormalize rc

/-- The call raises although the entry point has been launched. -/
def RaisesAfter (rc : ℤ) : Prop := ∀ divided, afterLaunch lib c rc ≠ .returned divided

/-- Where `moe_monokernel_prefill_out` raises. -/
inductive PrefillOutError
  /-- fused TP launch requires both a multicast pointer and a barrier pad pointer -/
  | missingPointers
  | impl (e : PrefillError)

/-- The call that `moe_monokernel_prefill_out` passes on. -/
def PrefillOutCall.implCall (w : PrefillOutCall) : ImplCall where
  toPrefillInputs := w.toPrefillInputs
  tp :=
    if 0 < w.tpNcomm then
      some ⟨w.tpMcPtr, w.tpPadsPtr, w.tpSeqctrPtr, w.tpRank, w.tpWorld, w.tpNchunk, w.tpNcomm⟩
    else none
  expertMap := none

/-- `moe_monokernel_prefill_out` up to the call of the entry point. -/
def moeMonokernelPrefillOut (w : PrefillOutCall) :
    Except PrefillOutError (EntryPoint × List CArg) := do
  raiseIf (0 < w.tpNcomm ∧ ¬ (w.tpMcPtr ≠ 0 ∧ w.tpPadsPtr ≠ 0)) .missingPointers
  (prefillLaunch lib w.implCall).mapError .impl

/-! ## What the list should be -/

/-- A member of the tuple, or null. -/
def ImplCall.tpField (f : TpTuple → ℤ) : ℤ :=
  match c.tp with
  | some tp => f tp
  | none => 0

/-- The argument that belongs to a parameter. -/
def ImplCall.meaning : Param → CArg
  | .logits => cVoidP c.buffers.logits
  | .numTokens => cIntArg c.numTokens
  | .blockM => cIntArg 64
  | .workspace => cVoidP c.buffers.workspace
  | .workspaceBytes => cSizeT lib.workspaceBytes
  | .actBf16 => cVoidP c.buffers.act
  | .actFp8 => cVoidP c.buffers.actFp8
  | .actScales => cVoidP c.buffers.actScales
  | .upWFp8 => cVoidP c.buffers.wUp
  | .upWScales => cVoidP c.buffers.sUp
  | .downWFp8 => cVoidP c.buffers.wDown
  | .downWScales => cVoidP c.buffers.sDown
  | .outputAccum => cVoidP c.buffers.outputAccum
  | .topkIds => cVoidP c.buffers.topkIds
  | .topkWeights => cVoidP c.buffers.topkWeights
  | .sortedTokenIds => cVoidP c.buffers.sortedIds
  | .bf16Output => cVoidP c.buffers.out
  | .routerBias => cVoidP (if c.bias.isSome then c.buffers.bias else 0)
  | .tpMc => cVoidP (c.tpField TpTuple.mc)
  | .tpPads => cVoidP (c.tpField TpTuple.pads)
  | .tpRank => cIntArg (c.tpField TpTuple.rank)
  | .tpWorld => cIntArg (c.tpField TpTuple.world)
  | .tpNchunk => cIntArg (c.tpField TpTuple.nchunk)
  | .tpNcomm => cIntArg (c.tpField TpTuple.ncomm)
  | .tpSeq => cUint 0
  | .tpSeqctr => cVoidP (c.tpField TpTuple.seqctr)
  | .tpResidual => cVoidP c.residPtr
  | .outScale => cFloat c.outScale
  | .expertMap => cVoidP (if c.expertMap.isSome then c.buffers.emap else 0)
  | .stream => cVoidP c.buffers.stream

/-- The parameters for which the caller has supplied something that has an effect. -/
inductive ImplCall.Supplied : Param → Prop
  | bias : c.bias.isSome → Supplied .routerBias
  | collective {p : Param} : c.tp.isSome →
      p ∈ [Param.tpMc, .tpPads, .tpRank, .tpWorld, .tpNchunk, .tpNcomm] → Supplied p
  | counter : c.tpField TpTuple.seqctr ≠ 0 → Supplied .tpSeqctr
  | residual : c.residPtr ≠ 0 → Supplied .tpResidual
  | scale : c.scaled → Supplied .outScale
  | expertMap : c.expertMap.isSome → Supplied .expertMap

/-- The list is what the entry point takes, and nothing supplied is dropped unless the call
raises. -/
structure Marshalled (rc : ℤ) (entry : EntryPoint) (args : List CArg) : Prop where
  args : args = (lib.signature entry).map (c.meaning lib)
  supplied : ∀ p, c.Supplied p → p ∈ lib.signature entry ∨ RaisesAfter lib c rc

/-- An output scale comes with a fused configuration, and what is passed for the device counter is
null exactly when the binary has no parameter for it, unless the launch folds. -/
structure Marshals (rc : ℤ) : Prop where
  scale : c.tp = none → c.scaled = true → RaisesAfter lib c rc
  counter : ∀ tp ∈ c.tp, c.fold = false → (tp.seqctr ≠ 0 ↔ lib.devseq = true)

end Calls

/-! ## Which lists come out right -/

section Lists

variable {lib : Binary} {c : ImplCall} {entry : EntryPoint} {args : List CArg} {rc : ℤ}

/-- What has been established when the entry point is called. -/
structure ReachesEntry (lib : Binary) (c : ImplCall) (entry : EntryPoint) (args : List CArg) :
    Prop where
  entry : entryPoint lib.toLibrary c.prefillCall = some entry
  args : args = launchArgs lib c c.numTokens
  exclusive : c.tp.isSome → c.expertMap = none
  residual : c.tp = none → c.residPtr = 0

/-- A call that reaches its entry point. -/
lemma prefillLaunch_eq_ok (h : prefillLaunch lib c = .ok (entry, args)) :
    ReachesEntry lib c entry args := by
  unfold prefillLaunch at h
  cases himpl : prefillImpl lib.toLibrary c.prefillCall with
  | error e =>
    rw [himpl] at h
    cases h
  | ok launch =>
    obtain ⟨entry', o⟩ := launch
    rw [himpl] at h
    obtain ⟨rfl, rfl⟩ := Prod.mk.inj (Except.ok.inj h)
    obtain ⟨m, hreaches⟩ := prefillImpl_eq_ok himpl
    obtain ⟨k, -, -, -, -, -, -, -, hact, -⟩ := hreaches.sizes
    have hm : o.tokens = c.numTokens := by
      have hact : c.activations.shape = [m, k] := hact
      rw [hreaches.operands, PrefillInputs.numTokens, hact]
      rfl
    refine ⟨hreaches.entry, by rw [hm], hreaches.exclusive, fun htp => ?_⟩
    have hnone : c.residual = none :=
      hreaches.residual (by rw [ImplCall.prefillCall, htp, Option.isSome_none])
    rw [PrefillTensors.residPtr, hnone]

/-- The leading arguments are in their places. -/
lemma leadingArgs_eq : leadingArgs lib c c.numTokens = leadingParams.map (c.meaning lib) := rfl

/-- Everything but the residual, the scale and the counter is in its place in both entry points of
the collective. -/
lemma groupArgs_tp (lib : Binary) {tp : TpTuple} (htp : c.tp = some tp) :
    biasArgs c ++ tpLaunchArgs tp = (.routerBias :: tpParams).map (c.meaning lib) ++
      if tp.seqctr ≠ 0 then [c.meaning lib .tpSeqctr] else [] := by
  have hfield : ∀ f, c.tpField f = f tp := fun f => by rw [ImplCall.tpField, htp]
  have hbias : biasArgs c = [c.meaning lib .routerBias] := by simp [biasArgs, htp, ImplCall.meaning]
  rw [hbias, tpLaunchArgs]
  split_ifs <;> simp [tpParams, ImplCall.meaning, hfield]

/-- The entry point with the residual always gets what it takes. -/
lemma launchArgs_tp2 {tp : TpTuple} (htp : c.tp = some tp) (hfold : c.fold = true) :
    launchArgs lib c c.numTokens = (lib.signature .tp2).map (c.meaning lib) := by
  have hfield : ∀ f, c.tpField f = f tp := fun f => by rw [ImplCall.tpField, htp]
  simp [launchArgs, leadingArgs_eq, biasArgs, groupArgs, htp, hfold, Binary.signature,
    tp2LaunchArgs, tpParams, ImplCall.meaning, hfield]

/-- The entry point of the collective gets what it takes exactly when the counter is there. -/
lemma launchArgs_tp {tp : TpTuple} (htp : c.tp = some tp) (hfold : c.fold = false) :
    launchArgs lib c c.numTokens = (lib.signature .tp).map (c.meaning lib) ↔
      (tp.seqctr ≠ 0 ↔ lib.devseq = true) := by
  have hgroup : groupArgs c = tpLaunchArgs tp := by simp [groupArgs, htp, hfold]
  rw [launchArgs, leadingArgs_eq, hgroup, List.append_assoc (leadingParams.map _),
    groupArgs_tp lib htp]
  cases hseq : lib.devseq <;> by_cases hctr : tp.seqctr = 0 <;>
    simp [Binary.signature, hseq, hctr, ImplCall.meaning]

/-- The entry point without a fused configuration. -/
lemma entryPoint_eq_of_none (hentry : entryPoint lib.toLibrary c.prefillCall = some entry)
    (htp : c.tp = none) :
    entry = if c.expertMap.isSome then .ep else if c.bias.isSome then .router else .q1 := by
  unfold entryPoint ImplCall.prefillCall at hentry
  simp only [htp, Option.isSome_none, Bool.false_eq_true, if_false] at hentry
  split_ifs at hentry ⊢ <;> exact (Option.some.inj hentry).symm

/-- The other entry points always get what they take. -/
lemma launchArgs_none (hentry : entryPoint lib.toLibrary c.prefillCall = some entry)
    (htp : c.tp = none) :
    launchArgs lib c c.numTokens = (lib.signature entry).map (c.meaning lib) := by
  rw [entryPoint_eq_of_none hentry htp]
  cases hmap : c.expertMap <;> cases hbias : c.bias <;>
    simp [launchArgs, leadingArgs_eq, biasArgs, groupArgs, htp, hmap, hbias, Binary.signature,
      ImplCall.meaning]

/-- Without a fused configuration only a scale can get lost. -/
lemma mem_signature_none (hentry : entryPoint lib.toLibrary c.prefillCall = some entry)
    (htp : c.tp = none) (hresidual : c.residPtr = 0) {p : Param} (hp : c.Supplied p) :
    p ∈ lib.signature entry ↔ p ≠ .outScale := by
  have hfield : ∀ f, c.tpField f = 0 := fun f => by rw [ImplCall.tpField, htp]
  rw [entryPoint_eq_of_none hentry htp]
  cases hp with
  | bias h => cases hmap : c.expertMap <;> simp [h, Binary.signature]
  | collective h => simp [htp] at h
  | counter h => exact absurd (hfield _) h
  | residual h => exact absurd hresidual h
  | scale h =>
    cases c.expertMap <;> cases c.bias <;> simp [Binary.signature, leadingParams]
  | expertMap h => simp [h, Binary.signature]

/-- The entry point of a fused configuration. -/
lemma entryPoint_eq_of_some {tp : TpTuple}
    (hentry : entryPoint lib.toLibrary c.prefillCall = some entry)
    (htp : c.tp = some tp) : entry = if c.fold then .tp2 else .tp := by
  have hfold : c.prefillCall.fold = c.fold := rfl
  have htp' : c.prefillCall.tp = true := by rw [ImplCall.prefillCall, htp, Option.isSome_some]
  unfold entryPoint at hentry
  simp only [htp', hfold, if_true] at hentry
  split_ifs at hentry ⊢ <;> exact (Option.some.inj hentry).symm

/-- With a fused configuration everything supplied has a parameter, the counter where the entry
point takes one. -/
lemma mem_signature_some {tp : TpTuple}
    (hentry : entryPoint lib.toLibrary c.prefillCall = some entry)
    (htp : c.tp = some tp) (hmap : c.expertMap = none)
    (hcounter : c.fold = false → tp.seqctr ≠ 0 → lib.devseq = true) {p : Param}
    (hp : c.Supplied p) : p ∈ lib.signature entry := by
  have hsub : ∀ q ∈ [Param.tpMc, .tpPads, .tpRank, .tpWorld, .tpNchunk, .tpNcomm],
      q ∈ tpParams := by decide
  rw [entryPoint_eq_of_some hentry htp]
  cases hfold : c.fold with
  | true =>
    cases hp with
    | expertMap h => simp [hmap] at h
    | collective _ h => simp [Binary.signature, hsub _ h]
    | _ => simp [Binary.signature]
  | false =>
    obtain ⟨hresidual, hscaled⟩ : c.residPtr = 0 ∧ c.scaled = false := by
      simpa [PrefillInputs.fold] using hfold
    cases hp with
    | bias => simp [Binary.signature]
    | collective _ h => simp [Binary.signature, hsub _ h]
    | counter h =>
      have hseq : lib.devseq = true := hcounter hfold (by simpa [ImplCall.tpField, htp] using h)
      simp [Binary.signature, hseq]
    | residual h => exact absurd hresidual h
    | scale h => simp [hscaled] at h
    | expertMap h => simp [hmap] at h

/-- The list is what the entry point takes exactly when the counter is there for a launch that takes
it and does not fold. -/
lemma ReachesEntry.args_eq_iff (h : ReachesEntry lib c entry args) :
    args = (lib.signature entry).map (c.meaning lib) ↔
      ∀ tp ∈ c.tp, c.fold = false → (tp.seqctr ≠ 0 ↔ lib.devseq = true) := by
  rw [h.args]
  cases htp : c.tp with
  | none => exact iff_of_true (launchArgs_none h.entry htp) (fun _ h => by simp at h)
  | some tp =>
    have hargs : launchArgs lib c c.numTokens = (lib.signature entry).map (c.meaning lib) ↔
        (c.fold = false → (tp.seqctr ≠ 0 ↔ lib.devseq = true)) := by
      rw [entryPoint_eq_of_some h.entry htp]
      cases hfold : c.fold with
      | true => exact iff_of_true (launchArgs_tp2 htp hfold) nofun
      | false => exact (launchArgs_tp htp hfold).trans ⟨fun h _ => h, fun h => h rfl⟩
    exact hargs.trans ⟨fun h _ htp' => Option.some.inj htp' ▸ h, fun h => h tp rfl⟩

/-- A launch gets what it should exactly when the optional inputs are of this kind. -/
lemma ReachesEntry.marshalled (h : ReachesEntry lib c entry args) :
    Marshalled lib c rc entry args ↔ Marshals lib c rc := by
  constructor
  · intro hm
    refine ⟨fun htp hscaled => ?_, h.args_eq_iff.mp hm.args⟩
    refine (hm.supplied _ (.scale hscaled)).resolve_left fun hmem => ?_
    exact (mem_signature_none h.entry htp (h.residual htp) (.scale hscaled)).mp hmem rfl
  · intro hm
    refine ⟨h.args_eq_iff.mpr hm.counter, fun p hp => ?_⟩
    cases htp : c.tp with
    | none =>
      by_cases hscale : p = .outScale
      · subst hscale
        cases hp with
        | collective _ hmem => simp at hmem
        | scale hscaled => exact Or.inr (hm.scale htp hscaled)
      · exact Or.inl ((mem_signature_none h.entry htp (h.residual htp) hp).mpr hscale)
    | some tp =>
      have hmap : c.expertMap = none := h.exclusive (by rw [htp]; rfl)
      exact Or.inl
        (mem_signature_some h.entry htp hmap (fun hfold => (hm.counter tp htp hfold).mp) hp)

/-- A call of the wrapper that reaches the entry point. -/
lemma moeMonokernelPrefillOut_eq_ok {w : PrefillOutCall}
    (h : moeMonokernelPrefillOut lib w = .ok (entry, args)) :
    prefillLaunch lib w.implCall = .ok (entry, args) := by
  unfold moeMonokernelPrefillOut at h
  rw [raiseIf_bind_eq_ok] at h
  cases hlaunch : prefillLaunch lib w.implCall with
  | error e => simp [hlaunch, Except.mapError] at h
  | ok p => simpa [hlaunch, Except.mapError] using h.2

end Lists

/-- A launch of either function passes what the entry point takes, and drops nothing silently,
exactly when a scale comes with a fused configuration and the counter with the parameter for it. -/
theorem marshalled_iff (lib : Binary) (rc : ℤ) :
    (∀ c entry args, prefillLaunch lib c = .ok (entry, args) →
      (Marshalled lib c rc entry args ↔ Marshals lib c rc)) ∧
    ∀ w entry args, moeMonokernelPrefillOut lib w = .ok (entry, args) →
      (Marshalled lib w.implCall rc entry args ↔ Marshals lib w.implCall rc) :=
  ⟨fun _ _ _ h => (prefillLaunch_eq_ok h).marshalled,
    fun _ _ _ h => (prefillLaunch_eq_ok (moeMonokernelPrefillOut_eq_ok h)).marshalled⟩

/-! ### Calls of the DeepSeek-V3 binary -/

section Examples

/-- The binary, which takes the device counter. -/
def deepseekBinary : Binary where
  toLibrary := deepseekLibrary
  devseq := true
  workspaceBytes := 4096

/-- Sixteen tokens, with as many communication blocks, a device counter and an output scale. -/
def outCall (ncomm seqctr : ℤ) (outScale : Float) : PrefillOutCall where
  activations := (sampleCall 256).activations
  routerLogits := (sampleCall 256).routerLogits
  up := (sampleCall 256).up
  upScales := (sampleCall 256).upScales
  down := (sampleCall 256).down
  downScales := (sampleCall 256).downScales
  topK := 8
  renormalize := true
  bias := (sampleCall 256).bias
  out := (sampleCall 256).out
  residual := none
  outScale := outScale
  buffers := ⟨0x100, 0x200, 0x300, 0x400, 0x500, 0x600, 0x700, 0x800, 0x900, 0xA00, 0xB00, 0xC00,
    0xD00, 0xE00, 0xF00, 0, 0x1000⟩
  tpMcPtr := 0x2000
  tpPadsPtr := 0x3000
  tpSeqctrPtr := seqctr
  tpRank := 0
  tpWorld := 8
  tpNchunk := 1
  tpNcomm := ncomm

/-- A scale of one is none. -/
lemma one_not_scaled : ((1.0 : Float) != 1.0) = false := by decide +kernel

/-- A scale of two is one. -/
lemma two_scaled : ((2.0 : Float) != 1.0) = true := by decide +kernel

/-- The fused sample call reaches the entry point of the collective. -/
lemma moeMonokernelPrefillOut_fused (seqctr : ℤ) :
    moeMonokernelPrefillOut deepseekBinary (outCall 4 seqctr 1.0) =
      .ok (.tp, launchArgs deepseekBinary (outCall 4 seqctr 1.0).implCall 16) := by
  have hscaled : (outCall 4 seqctr 1.0).implCall.scaled = false := one_not_scaled
  have hfold : (outCall 4 seqctr 1.0).implCall.prefillCall.fold = false :=
    (Bool.false_or _).trans hscaled
  have hlaunch : prefillLaunch deepseekBinary (outCall 4 seqctr 1.0).implCall =
      .ok (.tp, launchArgs deepseekBinary (outCall 4 seqctr 1.0).implCall 16) := by
    unfold prefillLaunch prefillImpl entryPoint
    rw [hfold]
    rfl
  unfold moeMonokernelPrefillOut
  rw [hlaunch]
  rfl

/-- The sample call without a fused configuration takes the one with a bias. -/
lemma moeMonokernelPrefillOut_plain :
    moeMonokernelPrefillOut deepseekBinary (outCall 0 0 2.0) =
      .ok (.router, launchArgs deepseekBinary (outCall 0 0 2.0).implCall 16) := by
  have hfold : (outCall 0 0 2.0).implCall.prefillCall.fold = true := two_scaled
  have hlaunch : prefillLaunch deepseekBinary (outCall 0 0 2.0).implCall =
      .ok (.router, launchArgs deepseekBinary (outCall 0 0 2.0).implCall 16) := by
    unfold prefillLaunch prefillImpl entryPoint
    rw [hfold]
    rfl
  unfold moeMonokernelPrefillOut
  rw [hlaunch]
  rfl

/-- A fused call with a counter. -/
theorem marshalled_iff_withCounter : Marshalled deepseekBinary (outCall 4 0x4000 1.0).implCall 0 .tp
    (launchArgs deepseekBinary (outCall 4 0x4000 1.0).implCall 16) := by
  refine ((marshalled_iff deepseekBinary 0).2 _ _ _ (moeMonokernelPrefillOut_fused 0x4000)).mpr
    ⟨fun hnone => ?_, fun tp htp _ => ?_⟩
  · cases hnone
  · obtain rfl := Option.some.inj htp
    exact iff_of_true (by decide) rfl

/-- Without one, which is the default, the list is too short and the stream is passed for the
counter; and an output scale without a fused configuration is dropped. -/
theorem default_counter_misplaces_stream :
    (∃ args, moeMonokernelPrefillOut deepseekBinary (outCall 4 0 1.0) = .ok (.tp, args) ∧
      ¬ Marshalled deepseekBinary (outCall 4 0 1.0).implCall 0 .tp args ∧
        (deepseekBinary.signature .tp)[25]? = some .tpSeqctr ∧ args[25]? = some (cVoidP 0x1000)) ∧
    ∃ args, moeMonokernelPrefillOut deepseekBinary (outCall 0 0 2.0) = .ok (.router, args) ∧
      ¬ Marshalled deepseekBinary (outCall 0 0 2.0).implCall 0 .router args := by
  refine ⟨⟨_, moeMonokernelPrefillOut_fused 0, fun h => ?_, rfl, rfl⟩,
    ⟨_, moeMonokernelPrefillOut_plain, fun h => ?_⟩⟩
  · have hlength := congrArg List.length h.args
    rw [List.length_map] at hlength
    exact absurd hlength (by decide)
  · rcases h.supplied _ (.scale two_scaled) with hmem | hraises
    · exact absurd hmem (by decide)
    · exact hraises false rfl

end Examples

end UnimonoMoe
