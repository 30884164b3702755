import UnimonoMoe.Host.Gate
import UnimonoMoe.Kernel.Build

/-!
# What is checked about the tensors of a launch

The kernel takes raw pointers and the number of tokens; every other extent is a compiled constant.
`prefillImpl` is `_moe_monokernel_prefill_impl` up to the call of the entry point, with every check
that it makes of its own and those of `monokernel_validate`.  `KernelExtents` is what the kernel
assumes of the tensors it is handed.

On a layer the checks are those of the per-call gate (`prefillImpl_eq_error_iff`).  They establish a
part of what the kernel assumes (`prefillImpl_eq_ok`).  The rest is up to the caller:
`kernelExtents_iff` says that a launch is within its extents exactly when the caller has got right
what nothing checks.
-/

namespace UnimonoMoe

open Python

/-! ## Tensors -/

/-- A tensor argument, as far as its element type and its shape go. -/
structure TensorArg where
  dtype : Dtype
  shape : List ℕ
deriving DecidableEq, Repr

/-- `size(i)`, absent when there is no such dimension. -/
def TensorArg.size (t : TensorArg) (i : ℕ) : Option ℕ := t.shape[i]?

/-- `t.float()`. -/
def TensorArg.float (t : TensorArg) : TensorArg := { t with dtype := .float32 }

/-- The tensor can be indexed as an array of these dimensions: the inner ones are exact, because
they are the strides, and there is at least as much of the leading one. -/
def TensorArg.Covers (t : TensorArg) : List ℕ → Prop
  | [] => t.shape = []
  | d :: inner => ∃ n, d ≤ n ∧ t.shape = n :: inner

/-! ## The call -/

/-- The loaded binary: what it reports, and which optional entry points it exports. -/
structure Library where
  geo : Geometry
  hasTp : Bool
  hasTp2 : Bool
  hasEp : Bool

/-- The folded residual with its `data_ptr()`, which is null for a tensor without elements. -/
structure ResidualArg extends TensorArg where
  contiguous : Bool
  dataPtr : ℤ

/-- The tensors of a call of `_moe_monokernel_prefill_impl`, and `top_k`. -/
structure PrefillTensors where
  activations : TensorArg
  routerLogits : TensorArg
  up : TensorArg
  upScales : TensorArg
  down : TensorArg
  downScales : TensorArg
  topK : ℤ
  bias : Option TensorArg
  out : TensorArg
  residual : Option ResidualArg

/-- A call of `_moe_monokernel_prefill_impl`, as far as it decides whether and what is launched.
`tp` says that a fused configuration is passed. -/
structure PrefillCall extends PrefillTensors where
  tp : Bool
  /-- `float(out_scale) != 1.0` -/
  scaled : Bool
  expertMap : Option ExpertMap

/-- The entry points of the binary. -/
inductive EntryPoint
  | q1
  | router
  | tp
  | tp2
  | ep
deriving DecidableEq, Repr

/-- What the entry point is handed.  The weights are passed as bytes, in the shape they come in. -/
structure Operands where
  tokens : ℕ
  logits : TensorArg
  activations : TensorArg
  up : TensorArg
  upScales : TensorArg
  down : TensorArg
  downScales : TensorArg
  bias : Option TensorArg
  expertMap : Option ExpertMap
  out : TensorArg

/-- Where the call raises before the launch. -/
inductive PrefillError
  /-- `M, K = activations_in.shape` does not unpack. -/
  | notTwoDim
  /-- `size(i)` of a dimension that does not exist. -/
  | noSuchDim
  /-- the fused TP collective and an expert_map cannot be combined -/
  | tpWithMap
  /-- An error of `monokernel_validate`. -/
  | refused (e : ValidateError)
  /-- monokernel destination must be [M, H] bfloat16 -/
  | destination
  /-- monokernel folded residual must be [M, H] bfloat16 -/
  | residualShape
  /-- monokernel folded residual must be contiguous -/
  | residualLayout
  /-- a folded residual is only carried by the fused collective -/
  | residualWithoutTp
  /-- loaded monokernel .so has no launch_prefill_moe_wgmma_q1_tp2 -/
  | cannotFold
  /-- The binary does not export the entry point. -/
  | noEntry
deriving DecidableEq, Repr

/-- `resid_ptr` -/
def PrefillTensors.residPtr (c : PrefillTensors) : ℤ :=
  match c.residual with
  | some res => res.dataPtr
  | none => 0

/-- `fold` -/
def PrefillCall.fold (c : PrefillCall) : Bool := c.residPtr != 0 || c.scaled

/-- The entry point of a call, absent when the binary does not export it. -/
def entryPoint (lib : Library) (c : PrefillCall) : Option EntryPoint :=
  if c.tp then
    if c.fold then if lib.hasTp2 then some .tp2 else none
    else if lib.hasTp then some .tp else none
  else if c.expertMap.isSome then if lib.hasEp then some .ep else none
  else if c.bias.isSome then if lib.geo.hasRouterEntry then some .router else none
  else some .q1

/-- `M, K = activations_in.shape`. -/
def TensorArg.twoDims (t : TensorArg) : Option (ℕ × ℕ) :=
  match t.shape with
  | [m, k] => some (m, k)
  | _ => none

/-- The operands of a call with `m` tokens. -/
def PrefillCall.operands (c : PrefillCall) (m : ℕ) : Operands where
  tokens := m
  logits := c.routerLogits.float
  activations := c.activations
  up := c.up
  upScales := c.upScales.float
  down := c.down
  downScales := c.downScales.float
  bias := c.bias.map TensorArg.float
  expertMap := c.expertMap.map ExpertMap.toInt32
  out := c.out

/-- `_moe_monokernel_prefill_impl` up to the call of the entry point: the call it makes, or the
error it raises before. -/
def prefillImpl (lib : Library) (c : PrefillCall) :
    Except PrefillError (EntryPoint × Operands) := do
  let (m, k) ← orRaise c.activations.twoDims .notTwoDim
  let h ← orRaise (c.down.size 1) .noSuchDim
  raiseIf (c.expertMap.isSome ∧ c.tp) .tpWithMap
  let w13N ← orRaise (c.up.size 1) .noSuchDim
  let w2N ← orRaise (c.down.size 2) .noSuchDim
  let slabs ← orRaise (c.up.size 0) .noSuchDim
  match monokernelValidate lib.geo w13N w2N slabs c.topK k c.bias.isSome
      (c.expertMap.map ExpertMap.toInt32) with
  | some e => .error (.refused e)
  | none =>
    raiseIf (c.out.shape ≠ [m, h] ∨ c.out.dtype ≠ .bfloat16) .destination
    raiseIf (∃ res ∈ c.residual, res.shape ≠ [m, h] ∨ res.dtype ≠ .bfloat16) .residualShape
    raiseIf (∃ res ∈ c.residual, res.contiguous = false) .residualLayout
    raiseIf (c.residual.isSome ∧ c.tp = false) .residualWithoutTp
    raiseIf (c.fold ∧ lib.hasTp2 = false) .cannotFold
    let entry ← orRaise (entryPoint lib c) .noEntry
    .ok (entry, c.operands m)

/-! ## What the kernel assumes -/

/-- The report of a binary with the constants of `B`: every symbol that it exports returns the
compiled constant. -/
structure Geometry.Of (B : Build) (geo : Geometry) : Prop where
  numExperts : ∀ x, geo.numExperts = some x → x = B.numExperts
  numExpertsLocal : ∀ x, geo.numExpertsLocal = some x → x = B.eLocal
  kDim : ∀ x, geo.kDim = some x → x = B.kDim
  nUp : ∀ x, geo.nUp = some x → x = B.nUp
  nHalf : ∀ x, geo.nHalf = some x → x = B.nHalf

/-- The tensor has the element type and covers the dimensions. -/
def TensorArg.Holds (t : TensorArg) (dtype : Dtype) (dims : List ℕ) : Prop :=
  t.dtype = dtype ∧ t.Covers dims

/-- What the kernel assumes of the tensors it indexes with its compiled constants. -/
structure KernelExtents (B : Build) (o : Operands) : Prop where
  logits : o.logits.Holds .float32 [o.tokens, B.numExperts]
  activations : o.activations.Holds .bfloat16 [o.tokens, B.kDim]
  up : o.up.Holds .float8E4m3fn [B.eLocal, B.nUp, B.kDim]
  /-- `[E, N_WROW, N_KBLK]` -/
  upScales : o.upScales.Holds .float32 [B.eLocal, B.nUp / 128, B.kDim / 128]
  down : o.down.Holds .float8E4m3fn [B.eLocal, B.hDim, B.nHalf]
  /-- `[E, D_WROW, D_KBLK]` -/
  downScales : o.downScales.Holds .float32 [B.eLocal, B.hDim / 128, B.nHalf / 128]
  bias : ∀ b ∈ o.bias, b.Holds .float32 [B.numExperts]
  expertMap : ∀ emap ∈ o.expertMap, emap.dtype = .int32 ∧ B.numExperts ≤ emap.entries.length ∧
    ∀ x ∈ emap.entries, x < B.eLocal
  out : o.out.Holds .bfloat16 [o.tokens, B.hDim]

/-- What nothing checks on the way to the launch: the logits, the scales, the bias and the entries
of the map, the element types, the third dimension of `w13`, the first two of `w2`, and whatever
the binary does not report. -/
structure Unchecked (B : Build) (geo : Geometry) (c : PrefillCall) : Prop where
  logits : ∀ m ∈ c.activations.size 0, c.routerLogits.Covers [m, B.numExperts]
  activations : c.activations.dtype = .bfloat16
  kDim : geo.kDim = none → c.activations.size 1 = some B.kDim
  upDtype : c.up.dtype = .float8E4m3fn
  upInner : c.up.shape.drop 2 = [B.kDim]
  nUp : geo.nUp = none → c.up.size 1 = some B.nUp
  slabs : geo.numExpertsLocal = none → geo.numExperts = none → ∀ n ∈ c.up.size 0, B.eLocal ≤ n
  upScales : c.upScales.Covers [B.eLocal, B.nUp / 128, B.kDim / 128]
  downDtype : c.down.dtype = .float8E4m3fn
  downOuter : ∃ n, B.eLocal ≤ n ∧ c.down.shape.take 2 = [n, B.hDim]
  downRank : c.down.shape.length = 3
  nHalf : geo.nHalf = none → c.down.size 2 = some B.nHalf
  downScales : c.downScales.Covers [B.eLocal, B.hDim / 128, B.nHalf / 128]
  bias : ∀ b ∈ c.bias, b.Covers [B.numExperts]
  mapLength : geo.numExperts = none → ∀ emap ∈ c.expertMap, B.numExperts ≤ emap.entries.length
  mapEntries : ∀ emap ∈ c.expertMap, ∀ x ∈ emap.entries, toInt32 x < B.eLocal

/-! ## What the checks establish -/

section Checks

variable {B : Build} {geo : Geometry} {lib : Library} {c : PrefillCall} {entry : EntryPoint}
  {o : Operands}

/-- An error in front of the remaining checks. -/
lemma error_eq_none_iff {α : Type} {p : Prop} [Decidable p] {e : α} {x : Option α} :
    (if p then some e else x) = none ↔ ¬ p ∧ x = none := by
  split_ifs with h <;> simp [h]

/-- What `monokernel_validate` establishes about the sizes. -/
structure SizesMatch (geo : Geometry) (w13N w2N slabs k : ℤ) (expertMap : Option ExpertMap) :
    Prop where
  nUp : ¬ Differs geo.nUp w13N
  nHalf : ¬ Differs geo.nHalf w2N
  kDim : ¬ Differs geo.kDim k
  slabs : ¬ Differs (geo.numExpertsLocal.or geo.numExperts) slabs
  mapLength : ∀ emap ∈ expertMap, ¬ Differs geo.numExperts emap.entries.length

/-- Sizes that pass match what the binary reports. -/
lemma monokernelValidate_eq_none {w13N w2N slabs topK k : ℤ} {bias : Bool}
    {expertMap : Option ExpertMap}
    (h : monokernelValidate geo w13N w2N slabs topK k bias expertMap = none) :
    SizesMatch geo w13N w2N slabs k expertMap := by
  unfold monokernelValidate at h
  simp only [error_eq_none_iff] at h
  obtain ⟨hUp, hHalf, hK, hslabs, hrest⟩ := h
  refine ⟨hUp, hHalf, hK, hslabs, fun emap hmap hdiff => ?_⟩
  obtain rfl : expertMap = some emap := hmap
  by_cases hcap : truthy geo.epCapable = true <;> by_cases hdtype : emap.dtype = .int32 <;>
    simp [hcap, hdtype, hdiff] at hrest

/-- What has been established when a call reaches its entry point with `m` tokens. -/
structure Reaches (lib : Library) (c : PrefillCall) (m : ℕ) (entry : EntryPoint) (o : Operands) :
    Prop where
  operands : o = c.operands m
  entry : entryPoint lib c = some entry
  exclusive : c.tp = true → c.expertMap = none
  residual : c.tp = false → c.residual = none
  sizes : ∃ k h n w13N upInner n' w2N downInner, c.activations.shape = [m, k] ∧
    c.up.shape = n :: w13N :: upInner ∧ c.down.shape = n' :: h :: w2N :: downInner ∧
      c.out.shape = [m, h] ∧
        SizesMatch lib.geo w13N w2N n k (c.expertMap.map ExpertMap.toInt32)
  outDtype : c.out.dtype = .bfloat16

/-- A shape that unpacks has two dimensions. -/
lemma twoDims_eq_some {t : TensorArg} {mk : ℕ × ℕ} (h : t.twoDims = some mk) :
    t.shape = [mk.1, mk.2] := by
  unfold TensorArg.twoDims at h
  split at h
  · next m k heq =>
    obtain rfl := Option.some.inj h
    exact heq
  · cases h

/-- A call that reaches its entry point has passed every check. -/
theorem prefillImpl_eq_ok (h : prefillImpl lib c = .ok (entry, o)) :
    ∃ m, Reaches lib c m entry o := by
  unfold prefillImpl at h
  simp only [orRaise_bind_eq_ok, raiseIf_bind_eq_ok] at h
  obtain ⟨⟨m, k⟩, hact, hd, hdown, hmap, w13N, hup, w2N, hdown', slabs, hup', h⟩ := h
  cases hvalid : monokernelValidate lib.geo w13N w2N slabs c.topK k c.bias.isSome
      (c.expertMap.map ExpertMap.toInt32) with
  | some e => simp [hvalid] at h
  | none =>
    simp only [hvalid, orRaise_bind_eq_ok, raiseIf_bind_eq_ok] at h
    obtain ⟨hout, -, -, hresidual, -, entry', hentry, hok⟩ := h
    rw [not_or, not_not, not_not] at hout
    obtain ⟨rfl, rfl⟩ := Prod.mk.inj (Except.ok.inj hok)
    refine ⟨m, rfl, hentry, fun htp => ?_, fun htp => ?_, ?_, hout.2⟩
    · exact Option.not_isSome_iff_eq_none.mp fun hsome => hmap ⟨hsome, htp⟩
    · exact Option.not_isSome_iff_eq_none.mp fun hsome => hresidual ⟨hsome, htp⟩
    unfold TensorArg.size at hdown hup hdown' hup'
    cases hshape : c.up.shape with
    | nil => simp [hshape] at hup
    | cons n upRest =>
      cases upRest with
      | nil => simp [hshape] at hup
      | cons n₁ upInner =>
        cases hshape' : c.down.shape with
        | nil => simp [hshape'] at hdown
        | cons n' downRest =>
          cases downRest with
          | nil => simp [hshape'] at hdown
          | cons n₁' downRest =>
            cases downRest with
            | nil => simp [hshape'] at hdown'
            | cons n₂' downInner =>
              simp only [hshape, hshape', List.getElem?_cons_zero, List.getElem?_cons_succ,
                Option.some.injEq] at hdown hup hdown' hup'
              subst hdown hup hdown' hup'
              exact ⟨k, n₁', n, n₁, upInner, n', n₂', downInner, twoDims_eq_some hact, rfl, rfl,
                hout.1, monokernelValidate_eq_none hvalid⟩

/-- The sizes of the tensors of a call are those of a layer, on `m` activations of width `k`. -/
structure PrefillCall.OfLayer (c : PrefillCall) (layer : MoELayer) (m k : ℕ) : Prop where
  activations : c.activations.shape = [m, k]
  up : c.up.shape = [layer.localExperts, layer.nUp, layer.kDim]
  down : c.down.shape = [layer.localExperts, layer.hDim, layer.nHalf]
  topK : c.topK = layer.topK

/-- What comes after the entry point is none of the refusals before it. -/
lemma afterEntry_ne {renormalize : Bool} {rc : ℤ} :
    afterEntry geo renormalize rc ≠ .tpWithMap ∧
      ∀ e, afterEntry geo renormalize rc ≠ .refused e := by
  unfold afterEntry
  split_ifs <;> simp

/-- On the tensors of a layer the call is refused exactly when the per-call gate refuses it. -/
theorem prefillImpl_eq_error_iff {layer : MoELayer} {m k : ℕ} (h : c.OfLayer layer m k)
    (renormalize : Bool) (rc : ℤ) :
    (prefillImpl lib c = .error .tpWithMap ↔
      moeMonokernelPrefillImpl lib.geo layer k renormalize c.bias.isSome c.tp c.expertMap rc =
        .tpWithMap) ∧
    ∀ e, prefillImpl lib c = .error (.refused e) ↔
      moeMonokernelPrefillImpl lib.geo layer k renormalize c.bias.isSome c.tp c.expertMap rc =
        .refused e := by
  have hact : c.activations.twoDims = some (m, k) := by rw [TensorArg.twoDims, h.activations]
  have hdown : c.down.size 1 = some layer.hDim ∧ c.down.size 2 = some layer.nHalf := by
    simp [TensorArg.size, h.down]
  have hup : c.up.size 0 = some layer.localExperts ∧ c.up.size 1 = some layer.nUp := by
    simp [TensorArg.size, h.up]
  have hvalidate : layer.validate lib.geo k c.bias.isSome (c.expertMap.map ExpertMap.toInt32) =
      monokernelValidate lib.geo layer.nUp layer.nHalf layer.localExperts c.topK k c.bias.isSome
        (c.expertMap.map ExpertMap.toInt32) := by
    rw [h.topK]
    rfl
  unfold prefillImpl moeMonokernelPrefillImpl
  rw [hvalidate]
  simp only [raiseIf_bind_eq_error, orRaise_bind_eq_error, hact, hdown.1, hdown.2, hup.1, hup.2,
    Option.some.injEq, exists_eq_left', reduceCtorEq, false_or, and_false, and_true]
  by_cases hmap : c.expertMap.isSome = true ∧ c.tp = true
  · simp [hmap]
  · cases hvalid : monokernelValidate lib.geo layer.nUp layer.nHalf layer.localExperts c.topK k
        c.bias.isSome (c.expertMap.map ExpertMap.toInt32) with
    | some e => simp [hmap]
    | none => simp [hmap, raiseIf_bind_eq_error, orRaise_bind_eq_error, afterEntry_ne]

/-- A reported size that has passed its check is the compiled one. -/
lemma eq_of_not_differs {x : Option ℤ} {v w : ℕ} (h : ¬ Differs x v)
    (hreport : ∀ y, x = some y → y = w) (hnone : x = none → v = w) : v = w := by
  cases hx : x with
  | none => exact hnone hx
  | some y =>
    have hy : y = v := by
      by_contra hne
      exact h ⟨by simp [hx], fun heq => hne (Option.some.inj (hx.symm.trans heq))⟩
    exact_mod_cast hy.symm.trans (hreport y hx)

/-- There are enough weight slabs for the kernel when the binary reports how many it indexes. -/
lemma SizesMatch.eLocal_le {w13N w2N k : ℤ} {n : ℕ} {expertMap : Option ExpertMap}
    (h : SizesMatch geo w13N w2N n k expertMap) (hgeo : geo.Of B)
    (hnone : geo.numExpertsLocal = none → geo.numExperts = none → B.eLocal ≤ n) :
    B.eLocal ≤ n := by
  have hdiff := h.slabs
  cases hlocal : geo.numExpertsLocal with
  | some x =>
    rw [hlocal, Option.some_or, ← hlocal] at hdiff
    exact (eq_of_not_differs hdiff hgeo.numExpertsLocal (by simp [hlocal])).ge
  | none =>
    rw [hlocal, Option.none_or] at hdiff
    cases hglobal : geo.numExperts with
    | some x =>
      have heq : n = B.numExperts :=
        eq_of_not_differs hdiff hgeo.numExperts (by simp [hglobal])
      exact B.eLocal_le.trans heq.ge
    | none => exact hnone hlocal hglobal

/-- A launch within the extents of the kernel has got right what nothing checks. -/
lemma Reaches.unchecked {m : ℕ} (h : Reaches lib c m entry o) (hext : KernelExtents B o) :
    Unchecked B lib.geo c := by
  obtain ⟨rfl, -, -, -, ⟨k, hd, n, w13N, upInner, n', w2N, downInner, hact, hup, hdown, hout,
    hsizes⟩, -⟩ := h
  obtain ⟨⟨-, hlogits⟩, ⟨hactDtype, _, -, hact'⟩, ⟨hupDtype, nUp, hnUp, hup'⟩, ⟨-, hupScales⟩,
    ⟨hdownDtype, nDown, hnDown, hdown'⟩, ⟨-, hdownScales⟩, hbias, hmap, -⟩ := hext
  have hup'' : c.up.shape = [nUp, B.nUp, B.kDim] := hup'
  have hdown'' : c.down.shape = [nDown, B.hDim, B.nHalf] := hdown'
  have hact'' : c.activations.shape = [_, B.kDim] := hact'
  refine ⟨fun m' hm' => ?_, hactDtype, fun _ => ?_, hupDtype, by rw [hup'']; rfl, fun _ => ?_,
    fun _ _ x hx => ?_, hupScales, hdownDtype, ⟨nDown, hnDown, by rw [hdown'']; rfl⟩,
    by rw [hdown'']; rfl, fun _ => ?_, hdownScales, fun b hb => ?_, fun _ emap hemap => ?_,
    fun emap hemap x hx => ?_⟩
  · obtain rfl : m = m' := by
      rw [TensorArg.size, hact] at hm'
      exact Option.some.inj hm'
    exact hlogits
  · rw [TensorArg.size, hact'']
    rfl
  · rw [TensorArg.size, hup'']
    rfl
  · rw [TensorArg.size, hup''] at hx
    exact (Option.some.inj hx) ▸ hnUp
  · rw [TensorArg.size, hdown'']
    rfl
  · exact (hbias b.float (Option.mem_map_of_mem _ hb)).2
  · have hlength := (hmap emap.toInt32 (Option.mem_map_of_mem _ hemap)).2.1
    rwa [ExpertMap.toInt32, List.length_map] at hlength
  · exact (hmap emap.toInt32 (Option.mem_map_of_mem _ hemap)).2.2 _ (List.mem_map_of_mem hx)

/-- A launch that has got right what nothing checks is within the extents of the kernel. -/
lemma Reaches.extents {m : ℕ} (h : Reaches lib c m entry o) (hgeo : lib.geo.Of B)
    (hun : Unchecked B lib.geo c) : KernelExtents B o := by
  obtain ⟨rfl, -, -, -, ⟨k, hd, n, w13N, upInner, n', w2N, downInner, hact, hup, hdown, hout,
    hsizes⟩, houtDtype⟩ := h
  have hk : k = B.kDim := eq_of_not_differs hsizes.kDim hgeo.kDim fun hnone => by
    have hsize := hun.kDim hnone
    rw [TensorArg.size, hact] at hsize
    exact Option.some.inj hsize
  have hw13 : w13N = B.nUp := eq_of_not_differs hsizes.nUp hgeo.nUp fun hnone => by
    have hsize := hun.nUp hnone
    rw [TensorArg.size, hup] at hsize
    exact Option.some.inj hsize
  have hupInner : upInner = [B.kDim] := by
    have hdrop := hun.upInner
    rwa [hup] at hdrop
  have hslabs : B.eLocal ≤ n := hsizes.eLocal_le hgeo fun hlocal hglobal => by
    refine hun.slabs hlocal hglobal n ?_
    rw [TensorArg.size, hup]
    rfl
  obtain ⟨nDown, hnDown, htake⟩ := hun.downOuter
  rw [hdown] at htake
  obtain ⟨rfl, rfl⟩ : n' = nDown ∧ hd = B.hDim := by simpa using htake
  have hdownInner : downInner = [] := by
    have hrank := hun.downRank
    rw [hdown] at hrank
    simpa using hrank
  have hw2 : w2N = B.nHalf := eq_of_not_differs hsizes.nHalf hgeo.nHalf fun hnone => by
    have hsize := hun.nHalf hnone
    rw [TensorArg.size, hdown] at hsize
    exact Option.some.inj hsize
  subst hk hw13 hupInner hdownInner hw2
  refine ⟨⟨rfl, hun.logits m ?_⟩, ⟨hun.activations, m, le_rfl, hact⟩,
    ⟨hun.upDtype, n, hslabs, hup⟩, ⟨rfl, hun.upScales⟩, ⟨hun.downDtype, n', hnDown, hdown⟩,
    ⟨rfl, hun.downScales⟩, fun b hb => ?_, fun emap hemap => ?_, ⟨houtDtype, m, le_rfl, hout⟩⟩
  · rw [TensorArg.size, hact]
    rfl
  · obtain ⟨b', hb', rfl⟩ := Option.mem_map.mp hb
    exact ⟨rfl, hun.bias b' hb'⟩
  · obtain ⟨emap', hemap', rfl⟩ := Option.mem_map.mp hemap
    refine ⟨rfl, ?_, fun x hx => ?_⟩
    · cases hglobal : lib.geo.numExperts with
      | some x =>
        have hdiff := hsizes.mapLength _ hemap
        exact (eq_of_not_differs hdiff hgeo.numExperts (by simp [hglobal])).ge
      | none =>
        rw [ExpertMap.toInt32, List.length_map]
        exact hun.mapLength hglobal emap' hemap'
    · obtain ⟨x', hx', rfl⟩ := List.mem_map.mp hx
      exact hun.mapEntries emap' hemap' x' hx'

/-- A call that reaches the entry point hands it tensors of the extents and types the kernel
assumes exactly when those that nothing checks are right. -/
theorem kernelExtents_iff (hgeo : lib.geo.Of B) (h : prefillImpl lib c = .ok (entry, o)) :
    KernelExtents B o ↔ Unchecked B lib.geo c := by
  obtain ⟨m, hreaches⟩ := prefillImpl_eq_ok h
  exact ⟨hreaches.unchecked, hreaches.extents hgeo⟩

end Checks

/-! ### Calls of the DeepSeek-V3 binary -/

section Examples

/-- What the binary reports. -/
def deepseekLibrary : Library where
  geo :=
    { numExperts := some 256, numExpertsLocal := none, epCapable := none, topK := some 8
      kDim := some 7168, hDim := some 7168, nUp := some 512, nHalf := some 256
      routerMode := some 2, fusedRenorm := some 1, hasRouterEntry := true }
  hasTp := true
  hasTp2 := true
  hasEp := false

/-- The report is that of the build. -/
lemma deepseekLibrary_of : deepseekLibrary.geo.Of deepseekTP :=
  ⟨fun _ h => (Option.some.inj h).symm, nofun, fun _ h => (Option.some.inj h).symm,
    fun _ h => (Option.some.inj h).symm, fun _ h => (Option.some.inj h).symm⟩

/-- A call with 16 tokens whose logits have `width` columns. -/
def sampleCall (width : ℕ) : PrefillCall where
  activations := ⟨.bfloat16, [16, 7168]⟩
  routerLogits := ⟨.bfloat16, [16, width]⟩
  up := ⟨.float8E4m3fn, [256, 512, 7168]⟩
  upScales := ⟨.float32, [256, 4, 56]⟩
  down := ⟨.float8E4m3fn, [256, 7168, 256]⟩
  downScales := ⟨.float32, [256, 56, 2]⟩
  topK := 8
  bias := some ⟨.float32, [256]⟩
  out := ⟨.bfloat16, [16, 7168]⟩
  tp := false
  residual := none
  scaled := false
  expertMap := none

/-- The sample call reaches the entry point with a bias. -/
lemma prefillImpl_sampleCall (width : ℕ) : prefillImpl deepseekLibrary (sampleCall width) =
    .ok (.router, (sampleCall width).operands 16) := rfl

/-- The logits of the experts alone. -/
theorem kernelExtents_iff_sampleCall :
    KernelExtents deepseekTP ((sampleCall 256).operands 16) := by
  refine (kernelExtents_iff deepseekLibrary_of (prefillImpl_sampleCall 256)).mpr
    ⟨fun m hm => ⟨16, (Option.some.inj hm).ge, rfl⟩, rfl, nofun, rfl, rfl, nofun, nofun,
      ⟨256, le_rfl, rfl⟩, rfl, ⟨256, le_rfl, rfl⟩, rfl, nofun, ⟨256, le_rfl, rfl⟩, fun b hb => ?_,
      nofun, nofun⟩
  obtain rfl := Option.some.inj hb
  exact ⟨256, le_rfl, rfl⟩

/-- Logits with one more column, as the fused gates of the runner produce them, reach the kernel
and are not what it assumes. -/
theorem fused_gate_logits_launched : deepseekLibrary.geo.Of deepseekTP ∧
    prefillImpl deepseekLibrary (sampleCall 257) = .ok (.router, (sampleCall 257).operands 16) ∧
      ¬ KernelExtents deepseekTP ((sampleCall 257).operands 16) := by
  refine ⟨deepseekLibrary_of, prefillImpl_sampleCall 257, fun h => ?_⟩
  obtain ⟨-, n, -, hshape⟩ := h.logits
  have hwidth : [16, 257] = [n, 256] := hshape
  simp at hwidth

end Examples

end UnimonoMoe
