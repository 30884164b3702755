import UnimonoMoe.Host.RaggedGrid

/-!
# The pad-aware activation

`fast_silu_quant.py` multiplies the two halves of every row of the first GEMM by the SiLU rule and
quantizes the products in blocks of columns.  Its kernel can be given the routing; the programs of
rows that another rank owns then return at once, and those rows of the two result tensors keep what
was in the memory.

The kernel is modelled on flat memory, and `apply` with the three values of `VLLM_EP_FAST_SILU` on
top of it.  `apply_eq_ownedOutput` says that a block-quantized layer output is made from the rows of
owned slots alone; `applyFast_eq_apply` connects the kernel to it.
-/

namespace UnimonoMoe

open RowBuffers

/-! ## The kernel -/

/-- The operations that round, and the largest value of the quantized type. -/
structure SiluArith (K : Type) where
  /-- `libdevice.exp` -/
  exp : K → K
  addRn : K → K → K
  mulRn : K → K → K
  divRn : K → K → K
  /-- the conversion of a store to the quantized type -/
  toFp8 : K → K
  qmax : K
  /-- `1.0 / (qmax * 512.0)` -/
  minScale : K

/-- The two result tensors, flat. -/
structure SiluBuffers (K : Type) where
  out : ℕ → K
  scales : ℕ → K

/-- The routing that the masked kernel is given: `topk_ids_ptr` and `expert_map_ptr`. -/
structure SiluMask where
  topkIds : ℕ → ℤ
  expertMap : ℕ → ℤ

section Kernel

variable {K : Type} [Field K] [LinearOrder K]

/-- The gate times its sigmoid, times the up projection. -/
def SiluArith.siluMul (a : SiluArith K) (gate up : K) : K :=
  let sigmoidGate := a.divRn 1 (a.addRn 1 (a.exp (-gate)))
  a.mulRn (a.mulRn gate sigmoidGate) up

/-- The scale of a group with a given largest absolute value. -/
def SiluArith.groupScale (a : SiluArith K) (groupMax : K) : K :=
  max (a.divRn groupMax a.qmax) a.minScale

/-- A value with the scale of its group, clamped and converted. -/
def SiluArith.quantize (a : SiluArith K) (x scale : K) : K :=
  a.toFp8 (min (max (a.divRn x scale) (-a.qmax)) a.qmax)

variable (a : SiluArith K) (H G NG : ℕ)

/-- The stores of a program that does not return early: the products are viewed as `NG` groups of
`G` and back. -/
def siluTile (input : ℕ → K) (row : ℕ) : (Fin H → K) × (Fin NG → K) :=
  let base := row * (2 * H)
  let result := fun h => a.siluMul (input (base + h)) (input (base + H + h))
  let tile := fun g k => result (g * G + k)
  let groupMax := fun g => (List.range G).foldl (fun acc k => max acc |tile g k|) 0
  let groupScale := fun g => a.groupScale (groupMax g)
  let q := fun g k => a.quantize (tile g k) (groupScale g)
  (fun h => q (h / G) (h % G), fun g => groupScale g)

/-- One program of `_silu_mul_block_quant_kernel`. -/
def siluMulBlockQuantProgram (mask : Option SiluMask) (input : ℕ → K) (row : ℕ) :
    Option ((Fin H → K) × (Fin NG → K)) :=
  match mask with
  | none => some (siluTile a H G NG input row)
  | some mask =>
    let eid := mask.topkIds row
    if eid < 0 then none
    else
      let lid := mask.expertMap eid.toNat
      if lid < 0 then none else some (siluTile a H G NG input row)

/-- The effect of a program on the memory. -/
def siluStep (mask : Option SiluMask) (input : ℕ → K) (bufs : SiluBuffers K) (row : ℕ) :
    SiluBuffers K :=
  match siluMulBlockQuantProgram a H G NG mask input row with
  | none => bufs
  | some tile => ⟨writeRow bufs.out row tile.1, writeRow bufs.scales row tile.2⟩

/-- A launch whose programs run in the given order. -/
def siluMulBlockQuantKernel (mask : Option SiluMask) (input : ℕ → K) (order : List ℕ)
    (bufs : SiluBuffers K) : SiluBuffers K :=
  order.foldl (siluStep a H G NG mask input) bufs

/-- The rows in which a launch stores. -/
def storedRows (mask : Option SiluMask) (input : ℕ → K) (order : List ℕ) : List ℕ :=
  order.filter fun row => (siluMulBlockQuantProgram a H G NG mask input row).isSome

variable {H}

/-- The row as it is specified: every column is quantized with the scale of its block of `G`
columns. -/
def SiluArith.siluMulBlockQuant (row : Fin (2 * H) → K) : QuantRow K H :=
  let result := fun c : Fin H =>
    a.siluMul (row ⟨c, by omega⟩) (row ⟨H + c, by omega⟩)
  let scale := fun b => a.groupScale
    (((List.finRange H).filter fun c => c.val / G = b).foldl (fun acc c => max acc |result c|) 0)
  { values := fun c => a.quantize (result c) (scale (c / G))
    scales := fun b => if b < H / G then scale b else 0 }

end Kernel

/-! ## The wrapper -/

/-- The element types that the wrapper tells apart. -/
inductive TensorDtype
  | bfloat16
  | float16
  | float32
  | float8E4m3fn
  | float8E4m3fnuz
deriving DecidableEq, Repr

/-- What the wrapper asks its input about. -/
structure TensorInfo where
  dim : ℕ
  isContiguous : Bool
  dtype : TensorDtype
  /-- `x.shape[1]` -/
  width : ℕ

/-- `_supported`. -/
def supported (x : TensorInfo) (groupSize : ℕ) (quantDtype : TensorDtype) : Bool :=
  if x.dim ≠ 2 ∨ x.isContiguous = false then false
  else if quantDtype ≠ .float8E4m3fn then false
  else if x.dtype ≠ .bfloat16 ∧ x.dtype ≠ .float16 then false
  else if x.width % 2 ≠ 0 then false
  else
    let h := x.width / 2
    decide (0 < h ∧ h ≤ 8192) && decide (h % groupSize = 0) && decide (h &&& (h - 1) = 0)

/-- The ids as a tensor. -/
structure TopkIds where
  numel : ℕ
  get : ℕ → ℤ

section Wrapper

variable {K : Type} [Field K] [LinearOrder K] {H : ℕ}

/-- `ops.silu_and_mul_per_block_quant`, which runs over all rows. -/
def opsSiluAndMulPerBlockQuant (op : (Fin (2 * H) → K) → QuantRow K H) (groupSize numRows : ℕ)
    (input : ℕ → K) (empty : SiluBuffers K) : SiluBuffers K where
  out := fillRows empty.out (List.range numRows) fun i => (op (readRow (2 * H) input i)).values
  scales := fillRows empty.scales (List.range numRows) fun i (g : Fin (H / groupSize)) =>
    (op (readRow (2 * H) input i)).scales g

/-- `silu_and_mul_per_block_quant_pad_aware`, nothing when its assertion fails. -/
def siluAndMulPerBlockQuantPadAware (a : SiluArith K) (op : (Fin (2 * H) → K) → QuantRow K H)
    (x : TensorInfo) (numRows : ℕ) (input : ℕ → K) (groupSize : ℕ) (quantDtype : TensorDtype)
    (topkIds : Option TopkIds) (expertMap : Option (ℕ → ℤ)) (order : List ℕ)
    (empty : SiluBuffers K) : Option (SiluBuffers K) :=
  if !supported x groupSize quantDtype then
    some (opsSiluAndMulPerBlockQuant op groupSize numRows input empty)
  else if numRows = 0 then some empty
  else
    match topkIds, expertMap with
    | some ids, some map =>
      if ids.numel = numRows then
        some (siluMulBlockQuantKernel a H groupSize (H / groupSize) (some ⟨ids.get, map⟩) input
          order empty)
      else none
    | _, _ =>
      some (siluMulBlockQuantKernel a H groupSize (H / groupSize) none input order empty)

end Wrapper

/-! ## What the kernel stores -/

section Stores

variable {K : Type} [Field K] [LinearOrder K] {a : SiluArith K} {H G NG : ℕ}

/-- The ownership test, as a condition on a row. -/
def SiluMask.owns (mask : SiluMask) (row : ℕ) : Prop :=
  0 ≤ mask.topkIds row ∧ 0 ≤ mask.expertMap (mask.topkIds row).toNat

/-- The rows of a launch: all of them, or those that pass the ownership test. -/
def PassesMask (mask : Option SiluMask) (row : ℕ) : Prop :=
  ∀ m, mask = some m → m.owns row

/-- A program stores its tile or nothing. -/
lemma program_eq_some_iff {mask : Option SiluMask} {input : ℕ → K} {row : ℕ}
    {tile : (Fin H → K) × (Fin NG → K)} :
    siluMulBlockQuantProgram a H G NG mask input row = some tile ↔
      PassesMask mask row ∧ siluTile a H G NG input row = tile := by
  cases mask with
  | none => simp [siluMulBlockQuantProgram, PassesMask]
  | some m =>
    simp only [siluMulBlockQuantProgram, PassesMask, SiluMask.owns, Option.some.injEq, forall_eq']
    split_ifs with heid hlid
    · simp [heid]
    · simp [hlid]
    · simp [Int.not_lt.mp heid, Int.not_lt.mp hlid]

/-- The rows in which a launch stores are those that pass the test. -/
lemma mem_storedRows {mask : Option SiluMask} {input : ℕ → K} {order : List ℕ} {row : ℕ} :
    row ∈ storedRows a H G NG mask input order ↔ row ∈ order ∧ PassesMask mask row := by
  simp only [storedRows, List.mem_filter, Option.isSome_iff_exists, program_eq_some_iff]
  exact and_congr_right fun _ => ⟨fun ⟨_, h, _⟩ => h, fun h => ⟨_, h, rfl⟩⟩

/-- The rows of the result tensors after a launch. -/
lemma kernel_eq_fillRows (mask : Option SiluMask) (input : ℕ → K) (order : List ℕ)
    (bufs : SiluBuffers K) :
    siluMulBlockQuantKernel a H G NG mask input order bufs =
      { out := fillRows bufs.out (storedRows a H G NG mask input order)
          fun i => (siluTile a H G NG input i).1
        scales := fillRows bufs.scales (storedRows a H G NG mask input order)
          fun i => (siluTile a H G NG input i).2 } := by
  induction order generalizing bufs with
  | nil => rfl
  | cons row order ih =>
    have hfold : siluMulBlockQuantKernel a H G NG mask input (row :: order) bufs =
        siluMulBlockQuantKernel a H G NG mask input order
          (siluStep a H G NG mask input bufs row) := rfl
    rw [hfold, ih]
    unfold siluStep storedRows
    cases hprogram : siluMulBlockQuantProgram a H G NG mask input row with
    | none => rw [List.filter_cons_of_neg (by simp [hprogram])]
    | some tile =>
      obtain ⟨-, rfl⟩ := program_eq_some_iff.mp hprogram
      rw [List.filter_cons_of_pos (by simp [hprogram])]
      rfl

/-- A group of the tile is a block of columns of the row. -/
lemma groupMax_eq {x : ℕ → K} (hG : 0 < G) (hdvd : G ∣ H) {g : ℕ} (hg : g < H / G) :
    (List.range G).foldl (fun acc k => max acc |x (g * G + k)|) 0 =
      ((List.finRange H).filter fun c => c.val / G = g).foldl
        (fun acc (c : Fin H) => max acc |x c|) 0 := by
  have hwidth : H / G * G = H := Nat.div_mul_cancel hdvd
  refine le_antisymm ?_ ?_
  · refine (Loops.foldl_max_le_iff _ _ _ _).mpr ⟨?_, fun k hk => ?_⟩
    · exact (Loops.le_foldl_max _ _ _).1
    · have hk : k < G := List.mem_range.mp hk
      have hc : g * G + k < H := hwidth ▸ Loops.rowMajor_lt hg hk
      refine (Loops.le_foldl_max (fun c : Fin H => |x c|) _ _).2 ⟨g * G + k, hc⟩ ?_
      simp [Loops.rowMajor_div hk]
  · refine (Loops.foldl_max_le_iff _ _ _ _).mpr ⟨?_, fun c hc => ?_⟩
    · exact (Loops.le_foldl_max _ _ _).1
    · have hc : c.val / G = g := by simpa using hc
      have hsplit : g * G + c % G = c := hc ▸ Nat.div_add_mod' c G
      have hle := (Loops.le_foldl_max (fun k => |x (g * G + k)|) (List.range G) 0).2 (c % G)
        (List.mem_range.mpr (Nat.mod_lt _ hG))
      simp only [hsplit] at hle
      exact hle

/-- The tile that a program stores is the row as specified. -/
lemma siluTile_eq (hG : 0 < G) (hdvd : G ∣ H) (input : ℕ → K) (row : ℕ) :
    (siluTile a H G (H / G) input row).1 =
        (a.siluMulBlockQuant G (readRow (2 * H) input row)).values ∧
      ∀ g, (siluTile a H G (H / G) input row).2 g =
        (a.siluMulBlockQuant G (readRow (2 * H) input row)).scales g := by
  set x : ℕ → K := fun h =>
    a.siluMul (input (row * (2 * H) + h)) (input (row * (2 * H) + H + h)) with hx
  have hscale : ∀ g, g < H / G →
      a.groupScale ((List.range G).foldl (fun acc k => max acc |x (g * G + k)|) 0) =
        a.groupScale (((List.finRange H).filter fun c => c.val / G = g).foldl
          (fun acc (c : Fin H) => max acc |x c|) 0) := fun g hg =>
    congrArg a.groupScale (groupMax_eq hG hdvd hg)
  have hread : ∀ c : Fin H, a.siluMul (readRow (2 * H) input row ⟨c, by omega⟩)
      (readRow (2 * H) input row ⟨H + c, by omega⟩) = x c := fun c => by
    simp only [readRow, hx, Nat.add_assoc]
  constructor
  · funext c
    have hg : c / G < H / G := Nat.div_lt_div_of_lt_of_dvd hdvd c.isLt
    simp only [siluTile, SiluArith.siluMulBlockQuant, hread]
    rw [Nat.div_add_mod', hscale _ hg, hx]
  · intro g
    simp only [siluTile, SiluArith.siluMulBlockQuant, hread]
    rw [if_pos g.isLt, hscale _ g.isLt]

/-- A row after a launch: the specified row if a program stored it, else what was there. -/
lemma readRow_kernel (hG : 0 < G) (hdvd : G ∣ H) (mask : Option SiluMask) (input : ℕ → K)
    (order : List ℕ) (bufs : SiluBuffers K) (row : ℕ) :
    let after := siluMulBlockQuantKernel a H G (H / G) mask input order bufs
    (row ∈ storedRows a H G (H / G) mask input order →
        readRow H after.out row =
            (a.siluMulBlockQuant G (readRow (2 * H) input row)).values ∧
          ∀ g < H / G, after.scales (row * (H / G) + g) =
            (a.siluMulBlockQuant G (readRow (2 * H) input row)).scales g) ∧
      (row ∉ storedRows a H G (H / G) mask input order →
        readRow H after.out row = readRow H bufs.out row ∧
          ∀ g < H / G, after.scales (row * (H / G) + g) = bufs.scales (row * (H / G) + g)) := by
  rw [kernel_eq_fillRows]
  have hout := readRow_fillRows bufs.out (storedRows a H G (H / G) mask input order)
    (fun i => (siluTile a H G (H / G) input i).1) row
  have hscales := readRow_fillRows bufs.scales (storedRows a H G (H / G) mask input order)
    (fun i => (siluTile a H G (H / G) input i).2) row
  obtain ⟨hvalues, hblocks⟩ := siluTile_eq (a := a) hG hdvd input row
  constructor
  · intro hmem
    rw [if_pos hmem] at hout hscales
    exact ⟨hout.trans hvalues, fun g hg => (congrFun hscales ⟨g, hg⟩).trans (hblocks ⟨g, hg⟩)⟩
  · intro hmem
    rw [if_neg hmem] at hout hscales
    exact ⟨hout, fun g hg => congrFun hscales ⟨g, hg⟩⟩

end Stores

/-! ## `apply` on the flat buffers -/

/-- What two runs of a layer may differ in: the mode, the grid, the order of the programs and of the
slots in the blocks, and all that the memory holds before the run. -/
structure SiluRun (K : Type) (r : SlotRouting) where
  epFastSiluMode : ℕ
  epRagged : Bool
  assignment : ExpertAssignment r
  workspace13 : ℕ → K
  workspace2 : ℕ → K
  empty : SiluBuffers K
  order : List ℕ
  order_perm : order.Perm (List.range r.numSlots)

section Apply

variable {K : Type} [Field K] [LinearOrder K] {r : SlotRouting} {H W : ℕ}

/-- Row `i` of the two result tensors. -/
def SiluBuffers.row (bufs : SiluBuffers K) (H groupSize i : ℕ) : QuantRow K H where
  values := readRow H bufs.out i
  scales g := if g < H / groupSize then bufs.scales (i * (H / groupSize) + g) else 0

/-- The memory before a run, by rows. -/
def SiluRun.stale (run : SiluRun K r) (H : ℕ) : StaleMemory K H where
  workspace13 := run.workspace13
  workspace2 := run.workspace2
  empty := run.empty.row H 128

namespace TritonCall

variable (call : TritonCall K r (2 * H) H W) (q : QuantKernels K) (a : SiluArith K)
  (dtype quantDtype : TensorDtype) (run : SiluRun K r)

/-- The fused kernel that a mode selects. -/
def siluBlockQuant (cache1 : ℕ → K) : Option (SiluBuffers K) :=
  if run.epFastSiluMode ≠ 0 then
    siluAndMulPerBlockQuantPadAware a call.siluAndMulPerBlockQuant ⟨2, true, dtype, 2 * H⟩
      r.numSlots cache1 128 quantDtype
      (if 2 ≤ run.epFastSiluMode then some ⟨r.numSlots, r.topkIds⟩ else none)
      (if 2 ≤ run.epFastSiluMode then some r.expertMap else none) run.order run.empty
  else some (opsSiluAndMulPerBlockQuant call.siluAndMulPerBlockQuant 128 r.numSlots cache1
    run.empty)

/-- `qintermediate_cache2` with `a2q_scale`, by rows. -/
def fastQuantized (cache1 cache2 : ℕ → K) : Option (ℕ → QuantRow K H) :=
  if call.fusesSilu .blockFp8 then
    (call.siluBlockQuant a dtype quantDtype run cache1).map fun bufs => bufs.row H 128
  else some (q.quantizeInput .blockFp8 call.a2Scale r.numSlots (readRow H cache2))

/-- `TritonExperts.apply` with block quantization, or nothing when an assertion fails. -/
def applyFast : Option (Fin r.numTokens → Fin W → K) :=
  let slots := run.assignment.slots run.epRagged
  let cache1 := call.intermediateCache1 slots run.workspace2
  let cache2 := call.intermediateCache2 cache1 run.workspace13
  (call.fastQuantized q a dtype quantDtype run cache1 cache2).map fun quantized =>
    let cache3 := call.intermediateCache3 slots quantized cache2 cache1
    fun t => call.moeSum run.epRagged cache3 t

/-- The call in the mode of a run. -/
def inMode : TritonCall K r (2 * H) H W :=
  { call with
    epFastSiluMode := run.epFastSiluMode
    fastSiluSupported := supported ⟨2, true, dtype, 2 * H⟩ 128 quantDtype }

end TritonCall

/-- A supported row has whole blocks. -/
lemma dvd_of_supported {dtype quantDtype : TensorDtype}
    (h : supported ⟨2, true, dtype, 2 * H⟩ 128 quantDtype = true) : 128 ∣ H := by
  have hhalf : 2 * H / 2 = H := Nat.mul_div_cancel_left H Nat.two_pos
  simp only [supported, hhalf, Bool.if_false_left, Bool.and_eq_true, decide_eq_true_eq] at h
  exact Nat.dvd_of_mod_eq_zero h.2.2.2.2.1.2

variable {a : SiluArith K}

omit [LinearOrder K] in
/-- A row that agrees with a quantized row in its values and in the scales of its blocks. -/
lemma row_eq {bufs : SiluBuffers K} {i : ℕ} {quantized : QuantRow K H}
    (hvalues : readRow H bufs.out i = quantized.values)
    (hscales : ∀ g < H / 128, bufs.scales (i * (H / 128) + g) = quantized.scales g)
    (hzero : ∀ g, ¬g < H / 128 → quantized.scales g = 0) : bufs.row H 128 i = quantized := by
  refine congrArg₂ QuantRow.mk hvalues (funext fun g => ?_)
  split_ifs with hg
  · exact hscales g hg
  · exact (hzero g hg).symm

/-- A row after a launch over all rows. -/
lemma row_kernel (hdvd : 128 ∣ H) (mask : Option SiluMask) (input : ℕ → K) {order : List ℕ}
    (bufs : SiluBuffers K) {i : ℕ} (hi : i ∈ order) :
    (PassesMask mask i →
        (siluMulBlockQuantKernel a H 128 (H / 128) mask input order bufs).row H 128 i =
          a.siluMulBlockQuant 128 (readRow (2 * H) input i)) ∧
      (¬PassesMask mask i →
        (siluMulBlockQuantKernel a H 128 (H / 128) mask input order bufs).row H 128 i =
          bufs.row H 128 i) := by
  obtain ⟨hstored, hother⟩ := readRow_kernel (a := a) (by decide) hdvd mask input order bufs i
  constructor
  · intro h
    obtain ⟨hvalues, hscales⟩ := hstored (mem_storedRows.mpr ⟨hi, h⟩)
    exact row_eq hvalues hscales fun g hg => if_neg hg
  · intro h
    obtain ⟨hvalues, hscales⟩ := hother fun hmem => h (mem_storedRows.mp hmem).2
    exact row_eq hvalues (fun g hg => (hscales g hg).trans (if_pos hg).symm)
      fun g hg => if_neg hg

/-- A row after the kernel of the library. -/
lemma row_ops {op : (Fin (2 * H) → K) → QuantRow K H}
    (hop : ∀ row, op row = a.siluMulBlockQuant 128 row) {numRows : ℕ} (input : ℕ → K)
    (empty : SiluBuffers K) {i : ℕ} (hi : i < numRows) :
    (opsSiluAndMulPerBlockQuant op 128 numRows input empty).row H 128 i =
      op (readRow (2 * H) input i) := by
  have hmem := List.mem_range.mpr hi
  have hvalues := readRow_fillRows empty.out (List.range numRows)
    (fun i => (op (readRow (2 * H) input i)).values) i
  have hscales := readRow_fillRows empty.scales (List.range numRows)
    (fun i (g : Fin (H / 128)) => (op (readRow (2 * H) input i)).scales g) i
  rw [if_pos hmem] at hvalues hscales
  refine row_eq hvalues (fun g hg => congrFun hscales ⟨g, hg⟩) fun g hg => ?_
  rw [hop]
  exact if_neg hg

/-- The ownership test of the kernel is that of the other pad-aware kernels. -/
lemma owned_iff_owns (i : ℕ) :
    r.owned i = true ↔ SiluMask.owns ⟨r.topkIds, r.expertMap⟩ i := by
  simp [SlotRouting.owned, SiluMask.owns]

namespace TritonCall

variable (call : TritonCall K r (2 * H) H W) (q : QuantKernels K) (dtype quantDtype : TensorDtype)
  (run : SiluRun K r)

/-- In every mode a fused kernel runs, and its rows are those that the rows of `apply` describe. -/
lemma siluBlockQuant_eq
    (hop : ∀ row, call.siluAndMulPerBlockQuant row = a.siluMulBlockQuant 128 row) (cache1 : ℕ → K) :
    ∃ bufs, call.siluBlockQuant a dtype quantDtype run cache1 = some bufs ∧
      ∀ i < r.numSlots, bufs.row H 128 i =
        if (call.inMode dtype quantDtype run).skipsRow i then run.empty.row H 128 i
        else call.siluAndMulPerBlockQuant (readRow (2 * H) cache1 i) := by
  have hmem : ∀ i < r.numSlots, i ∈ run.order := fun i hi =>
    run.order_perm.mem_iff.mpr (List.mem_range.mpr hi)
  have hlib : ∀ i < r.numSlots, (call.inMode dtype quantDtype run).skipsRow i = false →
      (opsSiluAndMulPerBlockQuant call.siluAndMulPerBlockQuant 128 r.numSlots cache1
        run.empty).row H 128 i =
        if (call.inMode dtype quantDtype run).skipsRow i then run.empty.row H 128 i
        else call.siluAndMulPerBlockQuant (readRow (2 * H) cache1 i) := fun i hi hskip => by
    rw [row_ops hop _ _ hi, hskip]
    rfl
  unfold siluBlockQuant siluAndMulPerBlockQuantPadAware
  by_cases hmode : run.epFastSiluMode = 0
  · rw [if_neg (not_not.mpr hmode)]
    exact ⟨_, rfl, fun i hi => hlib i hi (by simp [skipsRow, inMode, hmode])⟩
  rw [if_pos hmode]
  cases hsupported : supported ⟨2, true, dtype, 2 * H⟩ 128 quantDtype with
  | false =>
    exact ⟨_, rfl, fun i hi => hlib i hi (by simp [skipsRow, inMode, hsupported])⟩
  | true =>
    have hdvd := dvd_of_supported hsupported
    rw [if_neg (by simp)]
    by_cases hrows : r.numSlots = 0
    · exact ⟨_, if_pos hrows, fun i hi => absurd hi (by omega)⟩
    rw [if_neg hrows]
    by_cases hskips : 2 ≤ run.epFastSiluMode
    · simp only [if_pos hskips, if_true]
      refine ⟨_, rfl, fun i hi => ?_⟩
      have hrow := row_kernel (a := a) hdvd (some ⟨r.topkIds, r.expertMap⟩) cache1 run.empty
        (hmem i hi)
      cases howned : r.owned i with
      | true =>
        have hpasses : PassesMask (some ⟨r.topkIds, r.expertMap⟩) i := fun m hm =>
          Option.some.inj hm ▸ (owned_iff_owns i).mp howned
        rw [hrow.1 hpasses, ← hop]
        simp [skipsRow, howned]
      | false =>
        have hnot : ¬PassesMask (some ⟨r.topkIds, r.expertMap⟩) i := fun h =>
          Bool.false_ne_true (howned.symm.trans ((owned_iff_owns i).mpr (h _ rfl)))
        rw [hrow.2 hnot]
        simp [skipsRow, inMode, howned, hskips, hsupported]
    · simp only [if_neg hskips]
      refine ⟨_, rfl, fun i hi => ?_⟩
      have hrow := row_kernel (a := a) hdvd none cache1 run.empty (hmem i hi)
      have hpasses : PassesMask none i := fun m hm => nomatch hm
      rw [hrow.1 hpasses, ← hop]
      simp [skipsRow, inMode, hskips]

/-- The quantized rows are those of `apply`. -/
lemma fastQuantized_eq
    (hop : ∀ row, call.siluAndMulPerBlockQuant row = a.siluMulBlockQuant 128 row)
    (cache1 cache2 : ℕ → K) :
    ∃ quantized, call.fastQuantized q a dtype quantDtype run cache1 cache2 = some quantized ∧
      ∀ i < r.numSlots, quantized i = (call.inMode dtype quantDtype run).qintermediateCache2 q
        .blockFp8 (run.empty.row H 128) cache1 cache2 i := by
  have hmode : (call.inMode dtype quantDtype run).fusesSilu .blockFp8 =
      call.fusesSilu .blockFp8 := rfl
  unfold fastQuantized qintermediateCache2
  rw [hmode]
  cases call.fusesSilu .blockFp8 with
  | false => exact ⟨_, rfl, fun _ _ => rfl⟩
  | true =>
    obtain ⟨bufs, hbufs, hrows⟩ := call.siluBlockQuant_eq dtype quantDtype run hop cache1
    exact ⟨_, by rw [hbufs]; rfl, hrows⟩

omit [LinearOrder K] in
/-- The second GEMM depends on the quantized rows of the slots. -/
lemma intermediateCache3_congr (assignment : ExpertAssignment r) (epRagged : Bool)
    {quantized quantized' : ℕ → QuantRow K H} (h : ∀ i < r.numSlots, quantized i = quantized' i)
    (cache2 workspace2 : ℕ → K) :
    call.intermediateCache3 (assignment.slots epRagged) quantized cache2 workspace2 =
      call.intermediateCache3 (assignment.slots epRagged) quantized' cache2 workspace2 := by
  have hrows : ∀ i ∈ assignment.slots epRagged, (if r.owned i then call.w2 i (quantized i) else 0) =
      if r.owned i then call.w2 i (quantized' i) else 0 := fun i hi => by
    rw [h i ((assignment.mem_slots _ i).mp hi).1]
  unfold intermediateCache3 groupedGemm
  rw [fillRows_congr workspace2 hrows]

/-- The flat kernels refine the rows of `apply`. -/
lemma applyFast_eq_apply
    (hop : ∀ row, call.siluAndMulPerBlockQuant row = a.siluMulBlockQuant 128 row) :
    call.applyFast q a dtype quantDtype run =
      some ((call.inMode dtype quantDtype run).apply q .blockFp8 run.assignment (run.stale H)
        run.epRagged) := by
  obtain ⟨quantized, hquantized, hrows⟩ := call.fastQuantized_eq q dtype quantDtype run hop
    (call.intermediateCache1 (run.assignment.slots run.epRagged) run.workspace2)
    (call.intermediateCache2
      (call.intermediateCache1 (run.assignment.slots run.epRagged) run.workspace2)
      run.workspace13)
  simp only [applyFast, hquantized, Option.map_some]
  rw [call.intermediateCache3_congr run.assignment run.epRagged hrows]
  rfl

end TritonCall

end Apply

/-! ## Two runs -/

section Runs

variable {K : Type} [Field K] [LinearOrder K] {r : SlotRouting} {N C W : ℕ}

namespace TritonCall

variable (call : TritonCall K r N C W) (q : QuantKernels K)

/-- The quantized row of an owned slot. -/
def ownedQuant (i : ℕ) : QuantRow K C :=
  if call.fusesSilu .blockFp8 then call.siluAndMulPerBlockQuant (call.upRow i)
  else q.rowQuant .blockFp8 C (call.activation (call.upRow i))

/-- The output that the rows of owned slots make. -/
def ownedOutput (t : Fin r.numTokens) : Fin W → K :=
  call.moeSum true (fillRows 0 (List.range r.numSlots) fun i =>
    call.downRow i (call.ownedQuant q i) (call.activation (call.upRow i))) t

/-- In every mode and on both grids the quantized row of an owned slot is the same. -/
lemma quantized_of_owned (assignment : ExpertAssignment r) (stale : StaleMemory K C)
    (epRagged : Bool) {i : ℕ} (hi : i < r.numSlots) (howned : r.owned i = true) :
    call.quantized q .blockFp8 assignment stale epRagged i = call.ownedQuant q i := by
  have hskip : call.skipsRow i = false := by simp [skipsRow, howned]
  have hrow := call.readRow_intermediateCache1 assignment epRagged stale.workspace2 hi howned
  have hactivated := call.activated_of_owned assignment stale epRagged hi howned
  unfold quantized qintermediateCache2 ownedQuant
  cases call.fusesSilu .blockFp8 with
  | true => simp only [if_true, hskip, Bool.false_eq_true, if_false, hrow]
  | false => exact congrArg (q.rowQuant .blockFp8 C) hactivated

/-- The output of a block-quantized layer is made from the rows of owned slots. -/
lemma apply_eq_ownedOutput (assignment : ExpertAssignment r) (stale : StaleMemory K C)
    (epRagged : Bool) :
    call.apply q .blockFp8 assignment stale epRagged = call.ownedOutput q := by
  funext t
  refine call.moeSum_congr t (fun h i hi howned => ?_) (fun h => nomatch h) fun i hi howned => ?_
  · subst h
    exact call.readRow_intermediateCache3_of_not_owned assignment _ _ _ hi howned
  · rw [call.readRow_intermediateCache3 assignment epRagged _ _ _ hi howned, readRow_fillRows,
      if_pos (List.mem_range.mpr hi)]
    exact congrArg₂ (call.downRow i) (call.quantized_of_owned q assignment stale epRagged hi howned)
      (call.activated_of_owned assignment stale epRagged hi howned)

end TritonCall

/-- All runs of a layer have the same output, whatever the mode and the grid, the order of the
programs, and the memory before the run.  The masked kernel, on rows of whole blocks as `_supported`
demands, stores exactly in the rows whose expert is valid and mapped to this rank, and a stored row
is the row as specified; the other rows keep what they held. -/
theorem fast_silu_noninterfering {H : ℕ} (a : SiluArith K) (q : QuantKernels K)
    (call : TritonCall K r (2 * H) H W) (dtype quantDtype : TensorDtype)
    (hop : ∀ row, call.siluAndMulPerBlockQuant row = a.siluMulBlockQuant 128 row) :
    (∃ output, ∀ run : SiluRun K r, call.applyFast q a dtype quantDtype run = some output) ∧
      ∀ (mask : SiluMask) (input : ℕ → K) (order : List ℕ) (bufs : SiluBuffers K), 128 ∣ H →
        let after := siluMulBlockQuantKernel a H 128 (H / 128) (some mask) input order bufs
        let stored := storedRows a H 128 (H / 128) (some mask) input order
        ∀ row,
          (row ∈ stored ↔ row ∈ order ∧
            0 ≤ mask.topkIds row ∧ 0 ≤ mask.expertMap (mask.topkIds row).toNat) ∧
          (row ∈ stored →
            let reference := a.siluMulBlockQuant 128 (readRow (2 * H) input row)
            readRow H after.out row = reference.values ∧
              ∀ g < H / 128, after.scales (row * (H / 128) + g) = reference.scales g) ∧
          (row ∉ stored →
            readRow H after.out row = readRow H bufs.out row ∧ ∀ g < H / 128,
              after.scales (row * (H / 128) + g) = bufs.scales (row * (H / 128) + g)) := by
  refine ⟨⟨call.ownedOutput q, fun run => ?_⟩, fun mask input order bufs hdvd => ?_⟩
  · rw [call.applyFast_eq_apply q dtype quantDtype run hop, TritonCall.apply_eq_ownedOutput]
    rfl
  · intro after stored row
    refine ⟨?_, readRow_kernel (by decide) hdvd (some mask) input order bufs row⟩
    rw [mem_storedRows, PassesMask]
    simp [SiluMask.owns]

/-- Arithmetic without rounding, and with a curve in place of the exponential. -/
def sampleArith : SiluArith ℚ where
  exp x := 1 + x * x
  addRn := (· + ·)
  mulRn := (· * ·)
  divRn := (· / ·)
  toFp8 x := round x
  qmax := 448
  minScale := 1 / (448 * 512)

/-- A layer with one block of columns that takes the fused path. -/
def sampleSiluCall : TritonCall ℚ sampleSlotRouting (2 * 128) 128 1 where
  w13 i c := i + c.val
  activation row c := row ⟨c, by omega⟩
  w2 _ quantized _ := quantized.values 0 * quantized.scales 0
  add := (· + ·)
  add_zero := add_zero
  a2Scale := 1
  lora := none
  isSilu := true
  deepGemmE8m0Used := false
  siluAndMulPerBlockQuant := sampleArith.siluMulBlockQuant 128
  epFastSiluMode := 0
  fastSiluSupported := true

/-- A run in memory full of one value. -/
def sampleSiluRun (mode : ℕ) (ragged : Bool) (v : ℚ) : SiluRun ℚ sampleSlotRouting where
  epFastSiluMode := mode
  epRagged := ragged
  assignment := .ofRange sampleSlotRouting
  workspace13 _ := v
  workspace2 _ := v
  empty := ⟨fun _ => v, fun _ => v⟩
  order := List.range sampleSlotRouting.numSlots
  order_perm := List.Perm.refl _

/-- Skipping rows on the ragged grid in memory full of 300 and writing all rows on the full one. -/
theorem fast_silu_noninterfering_sample :
    sampleSiluCall.applyFast sampleKernels sampleArith .bfloat16 .float8E4m3fn
        (sampleSiluRun 2 true 300) =
      sampleSiluCall.applyFast sampleKernels sampleArith .bfloat16 .float8E4m3fn
        (sampleSiluRun 0 false 0) := by
  obtain ⟨output, houtput⟩ := (fast_silu_noninterfering sampleArith sampleKernels sampleSiluCall
    .bfloat16 .float8E4m3fn fun _ => rfl).1
  exact (houtput _).trans (houtput _).symm

end Runs

end UnimonoMoe
