import Mathlib.Data.Finset.Basic
import UnimonoMoe.Host.FusedPlan
import UnimonoMoe.Kernel.Build

/-!
# The load gate and the per-call gate

`process_weights_after_loading` decides, once per layer, whether the monokernel serves the layer:
`loadGate` compares the geometry that the loaded binary reports with the layer.  Every later call
goes through `monokernelValidate`, which asks much of the same again, and through the
renormalization check behind the launch.

The two gates do not ask the same questions about the router.  `calls_pass_iff` says for which
layers and binaries a layer that the first gate lets through can never be turned away by the second
one.
-/

namespace UnimonoMoe

/-! ## Binary and layer -/

/-- `prefill_monokernel_geometry()`; a symbol the binary does not export is `none`. -/
structure Geometry where
  numExperts : Option ℤ
  numExpertsLocal : Option ℤ
  epCapable : Option ℤ
  topK : Option ℤ
  kDim : Option ℤ
  hDim : Option ℤ
  nUp : Option ℤ
  nHalf : Option ℤ
  routerMode : Option ℤ
  fusedRenorm : Option ℤ
  hasRouterEntry : Bool
deriving DecidableEq, Repr

/-- Element types. -/
inductive Dtype
  | int32
  | int64
  | uint8
  | bfloat16
  | float16
  | float32
  | float8E4m3fn
deriving DecidableEq, Repr

/-- `expert_map`. -/
structure ExpertMap where
  dtype : Dtype
  entries : List ℤ
deriving DecidableEq, Repr

/-- `expert_map.to(torch.int32)`. -/
def ExpertMap.toInt32 (emap : ExpertMap) : ExpertMap :=
  ⟨.int32, emap.entries.map UnimonoMoe.toInt32⟩

/-- `scoring_func`. -/
inductive ScoringFunc
  | softmax
  | sigmoid
  | other
deriving DecidableEq, Repr

/-- The backend that `select_fp8_moe_backend` has chosen. -/
inductive Fp8MoeBackend
  | triton
  | deepgemm
  | other
deriving DecidableEq, Repr

/-- A layer with its quantization method, as far as the two gates look at them.  Expert
parallelism shards the experts and then leaves no tensor parallelism to the layer. -/
structure MoELayer where
  globalNumExperts : ℕ
  topK : ℕ
  /-- `w13_weight.size(0)`, the local experts. -/
  localExperts : ℕ
  /-- `w13_weight.size(1)` -/
  nUp : ℕ
  /-- `w13_weight.size(2)` -/
  kDim : ℕ
  /-- `w2_weight.size(1)` -/
  hDim : ℕ
  /-- `w2_weight.size(2)` -/
  nHalf : ℕ
  expertMap : Option ExpertMap
  scoringFunc : ScoringFunc
  /-- `e_score_correction_bias is not None` -/
  bias : Bool
  renormalize : Bool
  blockQuant : Bool
  backend : Fp8MoeBackend
  tpSize : ℕ
  skipFinalAllReduce : Bool
  mkCanOverlapSharedExperts : Bool
  globalNumExperts_pos : 0 < globalNumExperts
  tpSize_of_ep : localExperts ≠ globalNumExperts → tpSize = 1

/-! ## The load gate -/

/-- The fields that `want` lists, in order. -/
inductive GeometryField
  | numExperts
  | topK
  | kDim
  | nUp
  | nHalf
  | hDim
  | numExpertsLocal
deriving DecidableEq, Repr

/-- What the binary reports for a field.  A binary without a local expert count mirrors the
global one. -/
def Geometry.field (geo : Geometry) : GeometryField → Option ℤ
  | .numExperts => geo.numExperts
  | .topK => geo.topK
  | .kDim => geo.kDim
  | .nUp => geo.nUp
  | .nHalf => geo.nHalf
  | .hDim => geo.hDim
  | .numExpertsLocal => geo.numExpertsLocal.or geo.numExperts

/-- `want`. -/
def MoELayer.want (layer : MoELayer) : GeometryField → ℤ
  | .numExperts => layer.globalNumExperts
  | .topK => layer.topK
  | .kDim => layer.kDim
  | .nUp => layer.nUp
  | .nHalf => layer.nHalf
  | .hDim => layer.hDim
  | .numExpertsLocal => layer.localExperts

/-- `mismatch`: the fields that the binary reports differently. -/
def mismatch (geo : Geometry) (layer : MoELayer) : List GeometryField :=
  [.numExperts, .topK, .kDim, .nUp, .nHalf, .hDim, .numExpertsLocal].filter fun f =>
    (geo.field f).any (· != layer.want f)

/-- Why the layer and the binary do not fit under expert parallelism. -/
inductive EpReason
  /-- weights are EP shaped but the .so is not EP capable -/
  | notCapable
  /-- the .so is an EP build but the weights hold every global expert -/
  | wholeWeights
  /-- layer exposes no expert_map -/
  | noMap
  /-- expert_map dtype is not int32 -/
  | mapDtype
  /-- expert_map has the wrong number of entries -/
  | mapLength
  /-- expert_map is not a global->local map -/
  | notAMap
deriving DecidableEq, Repr

/-- `ep_needed`. -/
def MoELayer.epNeeded (layer : MoELayer) : Bool := layer.localExperts != layer.globalNumExperts

/-- `ep_reason`. -/
def epReason (geo : Geometry) (layer : MoELayer) : Option EpReason :=
  let epCapable := truthy geo.epCapable
  if layer.epNeeded && !epCapable then some .notCapable
  else if epCapable && !layer.epNeeded then some .wholeWeights
  else if layer.epNeeded then
    match layer.expertMap with
    | none => some .noMap
    | some emap =>
      if emap.dtype ≠ .int32 then some .mapDtype
      else if emap.entries.length ≠ layer.globalNumExperts then some .mapLength
      else if emap.entries.countP (0 ≤ ·) ≠ layer.localExperts ∨
          maxValue emap.entries ≠ (layer.localExperts : ℤ) - 1 then some .notAMap
      else none
  else none

/-- `router_ok`. -/
def routerOk (mode : Option ℤ) (scoring : ScoringFunc) (bias : Bool) : Bool :=
  if (mode = some 0 ∧ scoring ≠ .softmax) ∨
      ((mode = some 1 ∨ mode = some 2) ∧ scoring ≠ .sigmoid) then false
  else if (mode = some 1 ∨ mode = some 2) ∧ bias = false then false
  else true

/-- `eligible`. -/
def MoELayer.eligible (layer : MoELayer) (useMonokernel : Bool) : Bool :=
  useMonokernel && layer.blockQuant && decide (layer.backend = .triton) && decide (1 < layer.topK)

/-- `process_weights_after_loading`, as far as it sets `_use_moe_monokernel`; `geo` is absent when
the binary does not load. -/
def loadGate (useMonokernel : Bool) (geo : Option Geometry) (layer : MoELayer) : Bool :=
  layer.eligible useMonokernel &&
    match geo with
    | none => false
    | some geo =>
      (mismatch geo layer).isEmpty && (epReason geo layer).isNone &&
        routerOk geo.routerMode layer.scoringFunc layer.bias

/-- `_fused_tp_eligible` of a layer whose `_use_moe_monokernel` is `useMoeMonokernel`. -/
def fusedTpEligible (useMoeMonokernel : Bool) (layer : MoELayer) : Bool :=
  useMoeMonokernel && !layer.mkCanOverlapSharedExperts &&
    (decide (2 ≤ layer.tpSize) && !layer.skipFinalAllReduce)

/-! ## The per-call gate -/

/-- Why `monokernel_validate` raises. -/
inductive ValidateError
  /-- monokernel built for another N_UP -/
  | nUp
  /-- monokernel built for another N_HALF -/
  | nHalf
  /-- monokernel built for another K_DIM -/
  | kDim
  /-- monokernel built to index another number of local expert slabs -/
  | localSlabs
  /-- monokernel built for another E and no expert_map to remap -/
  | needsMap
  /-- an expert_map was supplied but the loaded monokernel .so is not EP capable -/
  | notEpCapable
  /-- expert_map must be int32 -/
  | mapDtype
  /-- monokernel built for another E than the length of expert_map -/
  | mapLength
  /-- monokernel built for another TOP_K -/
  | topK
  /-- a softmax build cannot apply an e_score_correction_bias -/
  | biasOnSoftmax
  /-- monokernel .so does not export the router entry -/
  | noRouterEntry
  /-- a sigmoid build but no e_score_correction_bias was supplied -/
  | sigmoidWithoutBias
deriving DecidableEq, Repr

/-- `x` is reported and differs from `v`. -/
def Differs (x : Option ℤ) (v : ℤ) : Prop := x ≠ none ∧ x ≠ some v

instance (x : Option ℤ) (v : ℤ) : Decidable (Differs x v) := inferInstanceAs (Decidable (_ ∧ _))

/-- `monokernel_validate` on the sizes it reads off the tensors: the error it raises, if any. -/
def monokernelValidate (geo : Geometry) (w13N w2N slabs topK k : ℤ) (bias : Bool)
    (expertMap : Option ExpertMap) : Option ValidateError :=
  let localBuilt := geo.numExpertsLocal.or geo.numExperts
  if Differs geo.nUp w13N then some .nUp
  else if Differs geo.nHalf w2N then some .nHalf
  else if Differs geo.kDim k then some .kDim
  else if Differs localBuilt slabs then some .localSlabs
  else
    let mapError : Option ValidateError :=
      match expertMap with
      | none => if Differs geo.numExperts slabs then some .needsMap else none
      | some emap =>
        if !truthy geo.epCapable then some .notEpCapable
        else if emap.dtype ≠ .int32 then some .mapDtype
        else if Differs geo.numExperts emap.entries.length then some .mapLength
        else none
    match mapError with
    | some e => some e
    | none =>
      if Differs geo.topK topK then some .topK
      else if bias then
        if geo.routerMode = some 0 then some .biasOnSoftmax
        else if !geo.hasRouterEntry then some .noRouterEntry
        else none
      else if Differs geo.routerMode 0 then some .sigmoidWithoutBias
      else none

/-- `monokernel_validate` on the layer's weights and activations of width `k`. -/
def MoELayer.validate (geo : Geometry) (layer : MoELayer) (k : ℤ) (bias : Bool)
    (expertMap : Option ExpertMap) : Option ValidateError :=
  monokernelValidate geo layer.nUp layer.nHalf layer.localExperts layer.topK k bias expertMap

/-- What `_moe_monokernel_prefill_impl` does with a call: it raises in one of its checks, the
launch fails, or the call goes through. -/
inductive CallOutcome
  /-- the fused TP collective and an expert_map cannot be combined -/
  | tpWithMap
  | refused (e : ValidateError)
  /-- launch_prefill_moe_wgmma_q1 failed -/
  | launchFailed
  /-- a FUSED_RENORM build but renormalize=False was requested, after the launch -/
  | renormBakedIn
  /-- the output is returned; `divided` says that the host has renormalized it -/
  | returned (divided : Bool)
deriving DecidableEq, Repr

/-- `_moe_monokernel_prefill_impl` after the entry point has returned `rc`. -/
def afterEntry (geo : Geometry) (renormalize : Bool) (rc : ℤ) : CallOutcome :=
  if rc ≠ 0 then .launchFailed
  else if renormalize && !truthy geo.fusedRenorm then .returned true
  else if truthy geo.fusedRenorm && !renormalize then .renormBakedIn
  else .returned false

/-- `_moe_monokernel_prefill_impl`, as far as its own checks go.  `tp` says that a fused
configuration is passed, `rc` is what the entry returns. -/
def moeMonokernelPrefillImpl (geo : Geometry) (layer : MoELayer) (k : ℤ)
    (renormalize bias tp : Bool)
    (expertMap : Option ExpertMap) (rc : ℤ) : CallOutcome :=
  if expertMap.isSome && tp then .tpWithMap
  else
    match layer.validate geo k bias (expertMap.map ExpertMap.toInt32) with
    | some e => .refused e
    | none => afterEntry geo renormalize rc

/-- The token limit of the binary, `MOE_MONOKERNEL_PREFILL_MAX_TOKENS`. -/
def prefillMaxTokens : ℕ := 30720

/-- The kernel call that `try_moe_monokernel` makes for `m` tokens, if any: the fused one when the
fused launch goes ahead, the ordinary one otherwise. -/
def tryMoeMonokernel (useMoeMonokernel : Bool) (geo : Geometry) (layer : MoELayer) (m : ℕ)
    (fusedLaunches : Bool) (rc : ℤ) : Option CallOutcome :=
  if !useMoeMonokernel then none
  else if prefillMaxTokens < m then none
  else if fusedTpEligible useMoeMonokernel layer && fusedLaunches then
    some (moeMonokernelPrefillImpl geo layer layer.kDim layer.renormalize layer.bias true none rc)
  else
    some (moeMonokernelPrefillImpl geo layer layer.kDim layer.renormalize layer.bias false
      (if layer.epNeeded then layer.expertMap else none) rc)

/-! ## What the load gate establishes -/

section Gate

variable {geo : Geometry} {layer : MoELayer} {useMonokernel : Bool}

/-- Every field the binary reports is the layer's. -/
lemma not_differs_of_mismatch_nil (h : mismatch geo layer = []) (f : GeometryField) :
    ¬ Differs (geo.field f) (layer.want f) := by
  have hall := List.filter_eq_nil_iff.mp h
  have hf : f ∈ [GeometryField.numExperts, .topK, .kDim, .nUp, .nHalf, .hDim,
    .numExpertsLocal] := by
    cases f <;> simp
  rintro ⟨hreported, hne⟩
  obtain ⟨x, hx⟩ := Option.ne_none_iff_exists'.mp hreported
  refine hall f hf ?_
  rw [hx, Option.any_some, bne_iff_ne]
  rintro rfl
  exact hne hx

/-- What a layer and a binary have in common when the gate enables the layer. -/
structure Matched (geo : Geometry) (layer : MoELayer) : Prop where
  field : ∀ f, ¬ Differs (geo.field f) (layer.want f)
  ep : epReason geo layer = none
  router : routerOk geo.routerMode layer.scoringFunc layer.bias = true

/-- The gate enables a layer exactly when it is eligible and matches the binary. -/
theorem loadGate_eq_true_iff : loadGate useMonokernel (some geo) layer = true ↔
    layer.eligible useMonokernel = true ∧ Matched geo layer := by
  simp only [loadGate, Bool.and_eq_true, List.isEmpty_iff, Option.isNone_iff_eq_none]
  constructor
  · rintro ⟨heligible, ⟨hmismatch, hep⟩, hrouter⟩
    exact ⟨heligible, not_differs_of_mismatch_nil hmismatch, hep, hrouter⟩
  · rintro ⟨heligible, hmatched⟩
    refine ⟨heligible, ⟨List.filter_eq_nil_iff.mpr fun f _ hany => ?_, hmatched.ep⟩,
      hmatched.router⟩
    obtain ⟨x, hx, hne⟩ := Option.any_eq_true _ _ |>.mp hany
    refine hmatched.field f ⟨by simp [hx], fun heq => ?_⟩
    rw [hx] at heq
    exact bne_iff_ne.mp hne (Option.some.inj heq)

/-- The expert map of an enabled layer that needs one. -/
lemma Matched.expertMap (h : Matched geo layer) (hep : layer.epNeeded = true) :
    truthy geo.epCapable = true ∧ ∃ emap, layer.expertMap = some emap ∧ emap.dtype = .int32 ∧
      emap.entries.length = layer.globalNumExperts := by
  have hreason := h.ep
  unfold epReason at hreason
  rw [hep] at hreason
  cases hcap : truthy geo.epCapable with
  | false => simp [hcap] at hreason
  | true =>
    cases hmap : layer.expertMap with
    | none => simp [hcap, hmap] at hreason
    | some emap =>
      simp only [hcap, hmap] at hreason
      by_cases hdtype : emap.dtype = .int32
      · by_cases hlength : emap.entries.length = layer.globalNumExperts
        · exact ⟨rfl, emap, rfl, hdtype, hlength⟩
        · simp [hdtype, hlength] at hreason
      · simp [hdtype] at hreason

/-- The part of `monokernel_validate` that is about the router. -/
def routerError (geo : Geometry) (bias : Bool) : Option ValidateError :=
  if bias then
    if geo.routerMode = some 0 then some .biasOnSoftmax
    else if !geo.hasRouterEntry then some .noRouterEntry
    else none
  else if Differs geo.routerMode 0 then some .sigmoidWithoutBias
  else none

/-- On an enabled layer everything up to the expert map passes `monokernel_validate`. -/
lemma Matched.validate (h : Matched geo layer) (bias : Bool) (expertMap : Option ExpertMap) :
    layer.validate geo layer.kDim bias expertMap =
      match expertMap with
      | none => if layer.epNeeded ∧ geo.numExperts ≠ none then some .needsMap
        else routerError geo bias
      | some emap =>
        if !truthy geo.epCapable then some .notEpCapable
        else if emap.dtype ≠ .int32 then some .mapDtype
        else if Differs geo.numExperts emap.entries.length then some .mapLength
        else routerError geo bias := by
  have hUp := h.field .nUp
  have hHalf := h.field .nHalf
  have hK := h.field .kDim
  have hlocal := h.field .numExpertsLocal
  have hglobal := h.field .numExperts
  have hTop := h.field .topK
  simp only [Geometry.field, MoELayer.want] at hUp hHalf hK hlocal hglobal hTop
  have hmap : Differs geo.numExperts layer.localExperts ↔
      layer.epNeeded = true ∧ geo.numExperts ≠ none := by
    have hreport : geo.numExperts ≠ none → geo.numExperts = some (layer.globalNumExperts : ℤ) :=
      fun hne => by_contra fun heq => hglobal ⟨hne, heq⟩
    unfold Differs MoELayer.epNeeded
    constructor
    · rintro ⟨hne, hlocals⟩
      refine ⟨bne_iff_ne.mpr fun heq => hlocals ?_, hne⟩
      rw [hreport hne, heq]
    · rintro ⟨hep, hne⟩
      refine ⟨hne, fun heq => bne_iff_ne.mp hep ?_⟩
      rw [hreport hne] at heq
      exact_mod_cast (Option.some.inj heq).symm
  unfold MoELayer.validate monokernelValidate routerError
  simp only [hUp, hHalf, hK, hlocal, hTop, hmap, if_false]
  cases expertMap <;> dsimp only <;> split_ifs <;> rfl

/-- A layer that may take the fused path holds all experts. -/
lemma not_epNeeded_of_fusedTpEligible (h : fusedTpEligible true layer = true) :
    layer.epNeeded = false := by
  simp only [fusedTpEligible, Bool.and_eq_true, decide_eq_true_eq] at h
  by_contra hep
  have hne : layer.localExperts ≠ layer.globalNumExperts := by
    simpa [MoELayer.epNeeded] using hep
  have := layer.tpSize_of_ep hne
  omega

/-- What a kernel call of an enabled layer does. -/
lemma Matched.impl (h : Matched geo layer) {tp : Bool} (rc : ℤ)
    (htp : tp = true → layer.epNeeded = false) :
    moeMonokernelPrefillImpl geo layer layer.kDim layer.renormalize layer.bias tp
        (if !tp && layer.epNeeded then layer.expertMap else none) rc =
      match routerError geo layer.bias with
      | some e => .refused e
      | none => afterEntry geo layer.renormalize rc := by
  cases hep : layer.epNeeded with
  | false =>
    unfold moeMonokernelPrefillImpl
    simp only [Bool.and_false, Bool.false_eq_true, if_false, Option.isSome_none, Bool.false_and,
      Option.map_none]
    rw [h.validate, if_neg fun hneeded => absurd hneeded.1 (by simp [hep])]
  | true =>
    have htp' : tp = false := by
      cases tp with
      | false => rfl
      | true => exact absurd (htp rfl) (by simp [hep])
    obtain ⟨hcap, emap, hmap, hdtype, hlength⟩ := h.expertMap hep
    subst htp'
    unfold moeMonokernelPrefillImpl
    simp only [Bool.not_false, Bool.and_true, if_true, Bool.and_false, Bool.false_eq_true, if_false,
      hmap, Option.map_some, ExpertMap.toInt32]
    have hglobal : ¬ Differs geo.numExperts layer.globalNumExperts := h.field .numExperts
    rw [h.validate]
    simp only [hcap, List.length_map, hlength, hglobal, Bool.not_true, Bool.false_eq_true, ne_eq,
      not_true_eq_false, if_false]

/-! ## When the per-call gate never raises -/

/-- The call raises neither in `monokernel_validate` nor in the renormalization check. -/
def CallOutcome.Passes (o : CallOutcome) : Prop := (∀ e, o ≠ .refused e) ∧ o ≠ .renormBakedIn

/-- The router passes when a bias comes with a sigmoid binary, and none with a softmax one. -/
lemma routerError_eq_none_iff (bias : Bool) : routerError geo bias = none ↔
    (bias = true → geo.routerMode ≠ some 0 ∧ geo.hasRouterEntry = true) ∧
      (bias = false → geo.routerMode = none ∨ geo.routerMode = some 0) := by
  unfold routerError
  cases bias with
  | true =>
    by_cases hmode : geo.routerMode = some 0
    · simp [hmode]
    · cases hentry : geo.hasRouterEntry <;> simp [hmode]
  | false =>
    by_cases hmode : geo.routerMode = none
    · simp [Differs, hmode]
    · by_cases hzero : geo.routerMode = some 0 <;> simp [Differs, hmode, hzero]

/-- A call is one of two kinds: on the fused path, or with the expert map of the layer if it needs
one. -/
lemma tryMoeMonokernel_eq_some {m : ℕ} {fusedLaunches : Bool} {rc : ℤ} {o : CallOutcome}
    (ho : tryMoeMonokernel true geo layer m fusedLaunches rc = some o) :
    ∃ tp, (tp = true → layer.epNeeded = false) ∧ o = moeMonokernelPrefillImpl geo layer layer.kDim
      layer.renormalize layer.bias tp (if !tp && layer.epNeeded then layer.expertMap else none)
        rc := by
  unfold tryMoeMonokernel at ho
  split_ifs at ho with h1 h2 hfused hep
  · obtain rfl := Option.some.inj ho
    exact ⟨true, fun _ => not_epNeeded_of_fusedTpEligible (Bool.and_eq_true_iff.mp hfused).1,
      by simp⟩
  · obtain rfl := Option.some.inj ho
    exact ⟨false, fun htp => Bool.noConfusion htp, by simp [hep]⟩
  · obtain rfl := Option.some.inj ho
    exact ⟨false, fun htp => Bool.noConfusion htp, by simp [hep]⟩

/-- No call of an enabled layer is turned away exactly when the binary can take the layer's bias
or its absence, and does not renormalize unasked. -/
theorem calls_pass_iff (h : loadGate useMonokernel (some geo) layer = true) :
    (∀ m ≤ prefillMaxTokens, ∀ fusedLaunches rc, ∀ o,
      tryMoeMonokernel true geo layer m fusedLaunches rc = some o → o.Passes) ↔
      (layer.bias = true → geo.routerMode ≠ some 0 ∧ geo.hasRouterEntry = true) ∧
      (layer.bias = false → geo.routerMode = none ∨ geo.routerMode = some 0) ∧
      (truthy geo.fusedRenorm = true → layer.renormalize = true) := by
  have hmatched := (loadGate_eq_true_iff.mp h).2
  rw [← and_assoc, ← routerError_eq_none_iff]
  constructor
  · intro hall
    -- the ordinary call of one token, launched successfully
    have hone : tryMoeMonokernel true geo layer 1 false 0 =
        some (moeMonokernelPrefillImpl geo layer layer.kDim layer.renormalize layer.bias false
          (if !false && layer.epNeeded then layer.expertMap else none) 0) := by
      simp [tryMoeMonokernel, prefillMaxTokens]
    have hpass := hall 1 (by decide) false 0 _ hone
    rw [hmatched.impl 0 (fun htp => Bool.noConfusion htp)] at hpass
    cases hrouter : routerError geo layer.bias with
    | some e =>
      rw [hrouter] at hpass
      exact absurd rfl (hpass.1 e)
    | none =>
      refine ⟨rfl, fun hfused => ?_⟩
      by_contra hrenorm
      rw [Bool.not_eq_true] at hrenorm
      rw [hrouter] at hpass
      exact hpass.2 (by simp [afterEntry, hfused, hrenorm])
  · rintro ⟨hrouter, hrenorm⟩ m _ fusedLaunches rc o ho
    obtain ⟨tp, htp, rfl⟩ := tryMoeMonokernel_eq_some ho
    rw [hmatched.impl rc htp, hrouter]
    dsimp only [afterEntry]
    split_ifs with hrc hdivide hbaked
    · exact ⟨fun e => by simp, by simp⟩
    · exact ⟨fun e => by simp, by simp⟩
    · obtain ⟨hfused, hno⟩ := Bool.and_eq_true_iff.mp hbaked
      rw [hrenorm hfused] at hno
      exact absurd hno (by simp)
    · exact ⟨fun e => by simp, by simp⟩

end Gate

section Examples

/-- A Qwen3.5 layer with all experts local. -/
def qwenLayer : MoELayer where
  globalNumExperts := 256
  topK := 8
  localExperts := 256
  nUp := 256
  kDim := 2048
  hDim := 2048
  nHalf := 128
  expertMap := none
  scoringFunc := .softmax
  bias := false
  renormalize := true
  blockQuant := true
  backend := .triton
  tpSize := 8
  skipFinalAllReduce := false
  mkCanOverlapSharedExperts := false
  globalNumExperts_pos := by decide
  tpSize_of_ep h := absurd rfl h

/-- What the softmax binary for this layer reports. -/
def qwenGeometry : Geometry where
  numExperts := some 256
  numExpertsLocal := none
  epCapable := none
  topK := some 8
  kDim := some 2048
  hDim := some 2048
  nUp := some 256
  nHalf := some 128
  routerMode := some 0
  fusedRenorm := some 1
  hasRouterEntry := true

/-- The layer and its own binary: a call with one token goes through. -/
theorem calls_pass_iff_qwenLayer :
    tryMoeMonokernel true qwenGeometry qwenLayer 1 false 0 = some (.returned false) ∧
      (CallOutcome.returned false).Passes := by
  have hgate : loadGate true (some qwenGeometry) qwenLayer = true := by decide
  have hcall : tryMoeMonokernel true qwenGeometry qwenLayer 1 false 0 = some (.returned false) := by
    decide
  exact ⟨hcall, (calls_pass_iff hgate).mpr (by decide) 1 (by decide) false 0 _ hcall⟩

/-- The gate enables a softmax layer with a correction bias, and every call of it is refused. -/
theorem biased_softmax_refused :
    loadGate true (some qwenGeometry) { qwenLayer with bias := true } = true ∧
      tryMoeMonokernel true qwenGeometry { qwenLayer with bias := true } 1 false 0 =
        some (.refused .biasOnSoftmax) := by
  decide

end Examples

end UnimonoMoe
