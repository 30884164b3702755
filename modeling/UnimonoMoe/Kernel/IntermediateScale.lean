import UnimonoMoe.Kernel.OperandRings
import UnimonoMoe.Lib.Executions
import UnimonoMoe.Lib.Magnitudes

/-!
# The scales of the intermediate activation as a machine

`up_phase` leaves the products of gate and up projection in registers.  Before they go to shared
memory as FP8, every row is scaled by the maximum of each of its blocks of 128 columns.  Both
warpgroups hold one half of the columns of a block; they meet in a cell of `inter_scales`, by
`atomicMax` on the bit patterns, read the maximum back behind a barrier, and when the passes are
over the cell is converted in place to the scale that `down_phase` multiplies with.

The epochs and the threads are those of the tile loop.  The barriers of the main loop of a pass are
left out, so the warps may drift further apart than they do.
-/

namespace UnimonoMoe

open Epochs Binary32

/-! ## Constants and tiles -/

/-- The constants of the epilogue. -/
structure ScaleBuild where
  /-- `N_HALF` -/
  nHalf : ℕ
  /-- `M_SUBS` -/
  mSubs : ℕ
  /-- `PASSES_PER_WG` of the down projection -/
  passesPerWg : ℕ

namespace ScaleBuild

variable (B : ScaleBuild)

/-- `SCALE_GROUPS`, the blocks of 128 columns. -/
def scaleGroups : ℕ := B.nHalf / 128

/-- `PP_PER_WG`, the paired passes of a warpgroup. -/
def ppPerWg : ℕ := B.nHalf / 64 / numWg

/-- The index in `inter_scales`. -/
def cell (row sg : ℕ) : ℕ := row * B.scaleGroups + sg

/-- Each paired pass is about one block. -/
lemma ppPerWg_eq : B.ppPerWg = B.scaleGroups := Nat.div_div_eq_div_mul _ _ _

/-- A cell is one row and one group of columns. -/
lemma cell_inj {row row' sg sg' : ℕ} (hsg : sg < B.scaleGroups) (hsg' : sg' < B.scaleGroups)
    (h : B.cell row sg = B.cell row' sg') : row = row' ∧ sg = sg' :=
  Loops.rowMajor_inj hsg hsg' h

end ScaleBuild

/-- The tiles of a block, with the products `silu(gate) * up` of each by row and column. -/
structure ScaleTiles (B : ScaleBuild) where
  rows : ℕ → ℕ
  acc : ℕ → ℕ → ℕ → Float32
  rows_le : ∀ tile, rows tile ≤ 64 * B.mSubs

/-! ## The registers of a thread -/

/-- `m0b` -/
def Tid.m0b (t : Tid) : ℕ := t / 32 % 4 * 16 + t % 32 / 4

/-- `mr0` and `mr1`: the two rows of a sub-tile that a thread holds. -/
def rowOf (t : Tid) (sb half : ℕ) : ℕ := sb * 64 + (t.m0b + half * 8)

/-- The gate feature-pass `g` of a warpgroup. -/
def featurePass (t : Tid) (pp : ℕ) : ℕ := t.wg + pp * numWg

/-- The intermediate column of register `dr`. -/
def colOf (t : Tid) (pp dr : ℕ) : ℕ :=
  featurePass t pp * 64 + t % 32 % 4 * 2 + dr % 2 + dr / 4 * 8

/-- The scale-group index `sg`. -/
def scaleGroupOf (t : Tid) (pp : ℕ) : ℕ := featurePass t pp * 64 / 128

/-! ## Scales -/

section Quotients

variable {Q : Type} [OfNat Q 0] (div : Float32 → Float32 → Q)

/-- The factor by which a block with maximum `sc` is quantized.  The division is `Float32.div` in
the code. -/
def quantFactor (sc : Float32) : Q := if fltMin.lt sc then div 448 sc else 0

omit [OfNat Q 0] in
/-- The scale to which the maximum `mx` is converted for `down_phase`. -/
def downScale (mx : Float32) : Q := if fltMin.lt mx then div mx 448 else div 1 448

end Quotients

/-- Division in exact arithmetic. -/
def exactDiv (x y : Float32) : ℚ := value x / value y

section Maxima

variable {B : ScaleBuild} (T : ScaleTiles B)

/-- `mx0` and `mx1`: the maximum over the registers of one row. -/
def ScaleTiles.partialMax (tile : ℕ) (t : Tid) (pp sb half : ℕ) : Float32 :=
  (List.range 32).foldl (fun mx dr =>
    if dr / 2 % 2 = half then fmaxf mx (fabsf (T.acc tile (rowOf t sb half) (colOf t pp dr)))
    else mx) 0

/-- The maximum over the 128 columns of a block of a row. -/
def ScaleTiles.blockMax (tile row sg : ℕ) : Float32 :=
  (List.range 128).foldl (fun mx j => fmaxf mx (fabsf (T.acc tile row (sg * 128 + j)))) 0

end Maxima

/-! ## Programs -/

/-- The operations of the tile loop on `inter_scales`. -/
inductive InterScaleOp
  /-- `__syncthreads()`; `place` tells the barriers of a program apart -/
  | sync (place : ℕ)
  /-- `inter_scales[i] = 0.0f` -/
  | zero (i : ℕ)
  /-- `atomicMax` of `mx0` or `mx1` -/
  | atomicMax (pp sb half : ℕ)
  /-- `sc0` or `sc1` is read, and `inv0` or `inv1` made of it -/
  | quantize (pp sb half : ℕ)
  /-- the maximum in a cell is converted to a scale -/
  | convert (i : ℕ)
  /-- `as0` or `as1` of a step of the down projection -/
  | scaleUse (p dk sb half : ℕ)
deriving DecidableEq

/-- `inv0`, `inv1` and `as0`, `as1` of each sub-tile. -/
structure ScaleRegs where
  inv : ℕ → ℕ → Float32
  as : ℕ → ℕ → Float32

namespace ScaleBuild

variable (B : ScaleBuild)

/-- The place of an operation in every program it occurs in. -/
def place : InterScaleOp → ℕ
  | .sync k => k
  | .zero _ => 1
  | .atomicMax pp _ _ => 3 + 4 * pp
  | .quantize pp _ _ => 5 + 4 * pp
  | .convert _ => 3 + 4 * B.ppPerWg
  | .scaleUse p dk _ _ => 1 + B.scaleGroups * p + dk

/-- An operation on the rows of a sub-tile that belong to the tile. -/
def onRows (rows : ℕ) (t : Tid) (op : ℕ → ℕ → InterScaleOp) : List InterScaleOp :=
  (List.range B.mSubs).flatMap fun sb =>
    ((List.range 2).filter fun half => rowOf t sb half < rows).map (op sb)

/-- The end of a paired pass. -/
def upPass (rows : ℕ) (t : Tid) (pp : ℕ) : List InterScaleOp :=
  B.onRows rows t (.atomicMax pp) ++ (.sync (4 + 4 * pp) ::
    (B.onRows rows t (.quantize pp) ++ [.sync (6 + 4 * pp)]))

/-- `up_phase`. -/
def upProgram (rows : ℕ) (t : Tid) : List InterScaleOp :=
  .sync 0 :: ((Loops.strided t (64 * B.mSubs * B.scaleGroups) 256).map .zero ++ (.sync 2 ::
    ((List.range B.ppPerWg).flatMap (B.upPass rows t) ++
      ((Loops.strided t (rows * B.scaleGroups) 256).map .convert ++
        [.sync (4 + 4 * B.ppPerWg)]))))

/-- `down_phase`. -/
def downProgram (rows : ℕ) (t : Tid) : List InterScaleOp :=
  .sync 0 :: (List.range B.passesPerWg).flatMap fun p =>
    (List.range B.scaleGroups).flatMap fun dk => B.onRows rows t (.scaleUse p dk)

end ScaleBuild

/-! ## The machine -/

/-- A configuration: `inter_scales` is the memory. -/
abbrev ScaleConfig : Type := Config Unit Tid InterScaleOp (ℕ → Float32) ScaleRegs

section Machine

variable {B : ScaleBuild} (T : ScaleTiles B)

/-- The program of a thread in an epoch. -/
def ScaleTiles.program (n : ℕ) (t : Tid) : List InterScaleOp :=
  if n = 0 then [] else if RingBuild.isUp n then B.upProgram (T.rows (RingBuild.tileOf n)) t
  else B.downProgram (T.rows (RingBuild.tileOf n)) t

/-- When an operation can be executed. -/
def scaleEnabled (c : ScaleConfig) (_ : Unit) (_ : Tid) : InterScaleOp → Prop
  | .sync k => ∀ u, Arrived c () u (.sync k)
  | _ => True

/-- A register of a sub-tile is written. -/
def setSub (f : ℕ → ℕ → Float32) (sb half : ℕ) (x : Float32) : ℕ → ℕ → Float32 :=
  Function.update f sb (Function.update (f sb) half x)

/-- What an operation does to `inter_scales` and the registers. -/
def ScaleTiles.effect (c : ScaleConfig) (_ : Unit) (t : Tid) (i : InterScaleOp) :
    (ℕ → Float32) × ScaleRegs :=
  let m := c.mem
  let reg := c.reg () t
  match i with
  | .sync _ => (m, reg)
  | .zero k => (Function.update m k 0, reg)
  | .atomicMax pp sb half =>
    let k := B.cell (rowOf t sb half) (scaleGroupOf t pp)
    let mx := T.partialMax (RingBuild.tileOf (c.epoch ())) t pp sb half
    (Function.update m k (intMax (m k) mx), reg)
  | .quantize pp sb half =>
    let sc := m (B.cell (rowOf t sb half) (scaleGroupOf t pp))
    (m, { reg with inv := setSub reg.inv sb half (quantFactor Float32.div sc) })
  | .convert k => (Function.update m k (downScale Float32.div (m k)), reg)
  | .scaleUse _ dk sb half =>
    (m, { reg with as := setSub reg.as sb half (m (B.cell (rowOf t sb half) dk)) })

/-- The scales in the tile loop of a block over `tiles` tiles. -/
def ScaleTiles.machine (tiles : ℕ) : Machine Unit Tid InterScaleOp (ℕ → Float32) ScaleRegs where
  epochs := 2 * tiles
  prog n _ t := T.program n t
  start _ m := m
  reg₀ := ⟨fun _ _ => 0, fun _ _ => 0⟩
  enabled := scaleEnabled
  effect := T.effect

end Machine

/-! ## Which thread runs what -/

section Membership

variable {B : ScaleBuild} {T : ScaleTiles B} {n rows : ℕ} {t : Tid} {i : InterScaleOp}

/-- The `__syncthreads` of `up_phase` around the scales. -/
def ScaleBuild.UpSync (B : ScaleBuild) (k : ℕ) : Prop :=
  (k = 0 ∨ k = 2) ∨ (∃ pp < B.ppPerWg, k = 4 + 4 * pp ∨ k = 6 + 4 * pp) ∨ k = 4 + 4 * B.ppPerWg

/-- The rows of a sub-tile that belong to the tile. -/
def OnRows (B : ScaleBuild) (rows : ℕ) (t : Tid) (sb half : ℕ) : Prop :=
  sb < B.mSubs ∧ half < 2 ∧ rowOf t sb half < rows

/-- What a thread runs in an epoch. -/
def ScaleTiles.Runs (T : ScaleTiles B) (n : ℕ) (t : Tid) : InterScaleOp → Prop
  | .sync k => if RingBuild.isUp n then B.UpSync k else k = 0
  | .zero k => RingBuild.isUp n ∧ k < 64 * B.mSubs * B.scaleGroups ∧ k % 256 = t
  | .atomicMax pp sb half | .quantize pp sb half =>
    RingBuild.isUp n ∧ pp < B.ppPerWg ∧ OnRows B (T.rows (RingBuild.tileOf n)) t sb half
  | .convert k =>
    RingBuild.isUp n ∧ k < T.rows (RingBuild.tileOf n) * B.scaleGroups ∧ k % 256 = t
  | .scaleUse p dk sb half => RingBuild.isUp n = false ∧ p < B.passesPerWg ∧
    dk < B.scaleGroups ∧ OnRows B (T.rows (RingBuild.tileOf n)) t sb half

/-- A thread takes the numbers with its own modulo 256. -/
lemma mem_strided_tid {hi k : ℕ} : k ∈ Loops.strided t hi 256 ↔ k < hi ∧ k % 256 = t := by
  have ht := t.isLt
  rw [Loops.mem_strided (by decide)]
  omega

/-- What a thread does for each of its rows below the end of the tile. -/
lemma mem_onRows {op : ℕ → ℕ → InterScaleOp} :
    i ∈ B.onRows rows t op ↔ ∃ sb half, OnRows B rows t sb half ∧ op sb half = i := by
  simp only [ScaleBuild.onRows, OnRows, List.mem_flatMap, List.mem_map, List.mem_filter,
    List.mem_range, decide_eq_true_eq]
  constructor
  · rintro ⟨sb, hsb, half, hhalf, rfl⟩
    exact ⟨sb, half, ⟨hsb, hhalf⟩, rfl⟩
  · rintro ⟨sb, half, ⟨hsb, hhalf⟩, rfl⟩
    exact ⟨sb, hsb, half, hhalf, rfl⟩

/-- The program of an up phase has the operations of `Runs`. -/
lemma mem_upProgram_iff (hn : RingBuild.isUp n = true) :
    i ∈ B.upProgram (T.rows (RingBuild.tileOf n)) t ↔ T.Runs n t i := by
  simp only [ScaleBuild.upProgram, ScaleBuild.upPass, List.mem_cons, List.mem_append, List.mem_map,
    List.mem_flatMap, List.mem_range, mem_strided_tid, mem_onRows, List.not_mem_nil, or_false]
  cases i with
  | sync k =>
    simp only [ScaleTiles.Runs, ScaleBuild.UpSync, hn, if_true, ← or_assoc]
    simp
  | _ => simp [ScaleTiles.Runs, hn]

/-- So has that of a down phase. -/
lemma mem_downProgram_iff (hn : RingBuild.isUp n = false) :
    i ∈ B.downProgram (T.rows (RingBuild.tileOf n)) t ↔ T.Runs n t i := by
  simp only [ScaleBuild.downProgram, List.mem_cons, List.mem_flatMap, List.mem_range, mem_onRows]
  cases i with
  | _ => simp [ScaleTiles.Runs, hn]

/-- `Runs` describes the programs. -/
lemma mem_scaleProgram : i ∈ T.program n t ↔ 0 < n ∧ T.Runs n t i := by
  unfold ScaleTiles.program
  by_cases hzero : n = 0
  · simp [hzero]
  rw [if_neg hzero]
  split_ifs with hn
  · simp [mem_upProgram_iff hn, Nat.pos_of_ne_zero hzero]
  · simp [mem_downProgram_iff (Bool.eq_false_iff.mpr hn), Nat.pos_of_ne_zero hzero]

end Membership

/-! ## The order of a program -/

section Order

variable {B : ScaleBuild} {rows : ℕ} {t : Tid}

/-- One operation for each row is one place. -/
lemma piece_onRows {op : ℕ → ℕ → InterScaleOp} {k : ℕ}
    (hplace : ∀ sb half, B.place (op sb half) = k)
    (hinj : ∀ sb half sb' half', op sb half = op sb' half' → sb = sb' ∧ half = half') :
    Piece B.place k (k + 1) (B.onRows rows t op) := by
  refine Piece.of_const (List.nodup_flatMap.mpr ⟨fun sb _ => ?_, ?_⟩) ?_ (Nat.lt_succ_self k)
  · exact (List.nodup_range.filter _).map fun half half' h => (hinj _ _ _ _ h).2
  · refine List.nodup_range.imp fun {sb sb'} hne i hi hi' => ?_
    obtain ⟨half, -, rfl⟩ := List.mem_map.mp hi
    obtain ⟨half', -, h⟩ := List.mem_map.mp hi'
    exact hne (hinj _ _ _ _ h).1.symm
  · intro i hi
    obtain ⟨sb, half, -, rfl⟩ := mem_onRows.mp hi
    exact hplace sb half

/-- One operation for each number is one place. -/
lemma piece_strided {op : ℕ → InterScaleOp} {hi k : ℕ} (hplace : ∀ i, B.place (op i) = k)
    (hinj : Function.Injective op) :
    Piece B.place k (k + 1) ((Loops.strided t hi 256).map op) := by
  have hnodup : (Loops.strided t hi 256).Nodup := List.nodup_range' 256
  refine Piece.of_const (hnodup.map hinj) (fun i hi => ?_) (Nat.lt_succ_self k)
  obtain ⟨j, -, rfl⟩ := List.mem_map.mp hi
  exact hplace j

/-- A pass of an up phase goes through its places in order. -/
lemma piece_upPass (pp : ℕ) :
    Piece B.place (3 + 4 * pp) (3 + 4 * (pp + 1)) (B.upPass rows t pp) := by
  have hmax : Piece B.place (3 + 4 * pp) (3 + 4 * pp + 1) (B.onRows rows t (.atomicMax pp)) :=
    piece_onRows (fun _ _ => rfl) (by simp)
  have hquantize : Piece B.place (5 + 4 * pp) (5 + 4 * pp + 1)
      (B.onRows rows t (.quantize pp)) :=
    piece_onRows (fun _ _ => rfl) (by simp)
  have hlast : Piece B.place (6 + 4 * pp) (3 + 4 * (pp + 1)) [.sync (6 + 4 * pp)] :=
    Piece.singleton le_rfl (by simp only [ScaleBuild.place]; omega)
  refine hmax.append (3 + 4 * pp + 1) ?_ (by omega) (by omega)
  refine Piece.cons (5 + 4 * pp) (by simp only [ScaleBuild.place]; omega)
    (by simp only [ScaleBuild.place]; omega) ?_ (by omega)
  exact hquantize.append _ (hlast.mono (by omega) le_rfl) (by omega) (by omega)

/-- So does the phase. -/
lemma piece_scaleUp : Piece B.place 0 (5 + 4 * B.ppPerWg) (B.upProgram rows t) := by
  have hzero : Piece B.place 1 (1 + 1)
      ((Loops.strided t (64 * B.mSubs * B.scaleGroups) 256).map .zero) :=
    piece_strided (fun _ => rfl) fun _ _ h => by injection h
  have hconvert : Piece B.place (3 + 4 * B.ppPerWg) (3 + 4 * B.ppPerWg + 1)
      ((Loops.strided t (rows * B.scaleGroups) 256).map .convert) :=
    piece_strided (fun _ => rfl) fun _ _ h => by injection h
  have hpasses : Piece B.place 3 (3 + 4 * B.ppPerWg)
      ((List.range B.ppPerWg).flatMap (B.upPass rows t)) :=
    Piece.flatMap_range fun pp _ => piece_upPass pp
  have hlast : Piece B.place (4 + 4 * B.ppPerWg) (5 + 4 * B.ppPerWg)
      [.sync (4 + 4 * B.ppPerWg)] :=
    Piece.singleton le_rfl (by simp only [ScaleBuild.place]; omega)
  have hend := hpasses.append _ (hconvert.append _ (hlast.mono (by omega) le_rfl) (by omega)
    (by omega)) (by omega) (by omega)
  refine Piece.cons 1 le_rfl (by simp [ScaleBuild.place]) ?_ (by omega)
  refine hzero.append 2 ?_ (by omega) (by omega)
  exact Piece.cons 3 le_rfl (by simp [ScaleBuild.place]) hend (by omega)

/-- And a down phase. -/
lemma piece_scaleDown :
    Piece B.place 0 (1 + B.scaleGroups * B.passesPerWg) (B.downProgram rows t) := by
  refine Piece.cons 1 le_rfl (by simp [ScaleBuild.place]) ?_ (by omega)
  refine Piece.flatMap_range fun p _ => ?_
  rw [Nat.mul_succ, ← Nat.add_assoc]
  have hsteps : Piece B.place (1 + B.scaleGroups * p)
      (1 + B.scaleGroups * p + 1 * B.scaleGroups)
      ((List.range B.scaleGroups).flatMap fun dk => B.onRows rows t (.scaleUse p dk)) := by
    refine Piece.flatMap_range fun dk _ => ?_
    rw [Nat.one_mul, Nat.one_mul]
    exact piece_onRows (fun _ _ => rfl) (by simp)
  rwa [Nat.one_mul] at hsteps

/-- The programs of the tile loop are ordered by `place`. -/
theorem scaleMachine_staged (T : ScaleTiles B) (tiles : ℕ) :
    (T.machine tiles).Staged B.place := by
  have hprogram : ∀ n t, (T.program n t).Pairwise (fun i j => B.place i ≤ B.place j) ∧
      (T.program n t).Nodup := by
    intro n t
    unfold ScaleTiles.program
    split_ifs
    · exact ⟨List.Pairwise.nil, List.nodup_nil⟩
    · exact ⟨piece_scaleUp.sorted, piece_scaleUp.nodup⟩
    · exact ⟨piece_scaleDown.sorted, piece_scaleDown.nodup⟩
  exact ⟨fun _ _ => rfl, fun n _ t => (hprogram n t).1, fun n _ t => (hprogram n t).2⟩

end Order

end UnimonoMoe
