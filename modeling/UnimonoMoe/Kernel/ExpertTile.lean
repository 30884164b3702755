import UnimonoMoe.Kernel.IntermediateAgreement
import UnimonoMoe.Kernel.OperandBytes
import UnimonoMoe.Kernel.OperandProgress

/-!
# The row function of an expert

What a thread computes in the tile loop, register by register: `up_phase` accumulates gate and up
projection, combines them, scales the products and stores them as FP8; `down_phase` multiplies them
by the weights of the down projection.  The bytes that a product fetches are those that some
configuration of the operand pipelines holds while the step is read (`Fetches`), a scale is what
some configuration of the scale machine reads, and the stores to `fp8_inter` come in any order.

`expertRow` is the same computation without tiles, threads and shared memory: a function of the
expert, the token and the column.  `expert_tile` says that the registers of the down projection hold
it, whatever the order of the steps, whatever shared memory held, and whatever the other rows of the
tile are.
-/

namespace UnimonoMoe

open Epochs Loops Interleaving Swizzles Binary32

variable {β : Type*}

/-! ## The row function -/

/-- The operations whose results are not modelled. -/
structure TileArith (β : Type*) where
  /-- an element of a `wgmma`: the products of 32 bytes of two rows, added to an accumulator -/
  mma : (Fin 32 → β) → (Fin 32 → β) → Float32 → Float32
  /-- `acc += d * s`, which may be contracted -/
  macc : Float32 → Float32 → Float32 → Float32
  /-- `__fdividef` -/
  fdividef : Float32 → Float32 → Float32
  /-- `__expf` -/
  expf : Float32 → Float32
  /-- the conversion to `__nv_fp8_e4m3` -/
  e4m3 : Float32 → β

/-- The product of two rows of 128 bytes, before scaling. -/
def TileArith.blockDot (A : TileArith β) (a b : ℕ → β) : Float32 :=
  (List.range 4).foldl (fun d j => A.mma (fun k => a (j * 32 + k)) (fun k => b (j * 32 + k)) d) 0

/-- The operands of the tile loop, with their scales. -/
structure ExpertData (β : Type*) extends TileData β where
  actScales : ℕ → Float32
  upWScales : ℕ → Float32
  downWScales : ℕ → Float32

namespace ExpertData

variable (X : ExpertData β) (A : TileArith β) (B : Build) (e tok : ℕ)

/-- Feature `feat` of the fused gate and up projection. -/
def upFeature (feat : ℕ) : Float32 :=
  (List.range B.nKblk).foldl (fun acc ks => A.macc acc
    (A.blockDot (fun x => X.actFp8 (tok * B.kDim + (ks * 128 + x)))
      fun x => X.upWFp8 ((e * B.nUp + feat) * B.kDim + (ks * 128 + x)))
    (X.upWScales (e * (B.nUp / 128) * B.nKblk + feat / 128 * B.nKblk + ks) *
      X.actScales (tok * B.nKblk + ks))) 0

/-- Column `col` of the intermediate activation, `silu(gate) * up`. -/
def activated (col : ℕ) : Float32 :=
  let gate := X.upFeature A B e tok col
  A.fdividef (X.upFeature A B e tok (B.nHalf + col) * gate) (1 + A.expf (-gate))

/-- The maximum of a block of 128 columns. -/
def activatedMax (dk : ℕ) : Float32 :=
  (List.range 128).foldl (fun mx j => fmaxf mx (fabsf (X.activated A B e tok (dk * 128 + j)))) 0

/-- The intermediate activation, quantized with the scale of its block. -/
def activatedByte (col : ℕ) : β :=
  A.e4m3 (X.activated A B e tok col *
    quantFactor Float32.div (X.activatedMax A B e tok (col / 128)))

/-- Column `h` of what the expert makes of the token. -/
def expertRow (h : ℕ) : Float32 :=
  (List.range B.dKblk).foldl (fun acc dk => A.macc acc
    (A.blockDot (fun x => X.activatedByte A B e tok (dk * 128 + x))
      fun x => X.downWFp8 ((e * B.hDim + h) * B.nHalf + (dk * 128 + x)))
    (X.downWScales (e * (B.hDim / 128) * B.dKblk + h / 128 * B.dKblk + dk) *
      downScale Float32.div (X.activatedMax A B e tok dk))) 0

end ExpertData

/-! ## Registers -/

/-- The row of a sub-tile to which register `dr` of a product belongs. -/
def fragRow (t : Tid) (dr : ℕ) : ℕ := stageRow (t / 32 % 4) (t % 32) dr

/-- The weight row to which register `dr` of a product belongs. -/
def fragCol (t : Tid) (dr : ℕ) : ℕ := stageCol (t % 32) dr

/-- `wgmma_m64n64k32_e4m3_e4m3_f32` on the registers of a thread. -/
def wgmma (A : TileArith β) (t : Tid) (a b : ℕ → ℕ → β) (d : ℕ → Float32) (dr : ℕ) : Float32 :=
  A.mma (fun k => a (fragRow t dr) k) (fun k => b (fragCol t dr) k) (d dr)

/-- The products of a sub-tile in a step. -/
def subTile (A : TileArith β) (t : Tid) (a b : ℕ → ℕ → ℕ → β) : ℕ → Float32 :=
  (List.range 4).foldl (fun d j => wgmma A t (a j) (b j) d) fun _ => 0

/-- The bytes that the products fetch, by epoch, warpgroup, step, sub-tile, product, row and place
in the row. -/
structure Fetched (β : Type*) where
  a : ℕ → Fin 2 → ℕ → ℕ → ℕ → ℕ → ℕ → β
  w : ℕ → Fin 2 → ℕ → ℕ → ℕ → ℕ → ℕ → β

/-- `acc_g` and `acc_u`, by sub-tile and register. -/
structure UpAccs where
  g : ℕ → ℕ → Float32
  u : ℕ → ℕ → Float32

section Registers

variable (B : Build) (X : ExpertData β) (A : TileArith β) (F : Fetched β) (tile : ℕ) (t : Tid)

/-- `as0` and `as1`: the activation scale of a row, zero for the rows past the end of the tile. -/
def rowScale (row ks : ℕ) : Float32 :=
  if row < X.rows tile then X.actScales (X.fi tile row / B.topK * B.nKblk + ks) else 0

/-- `gfp` of a half of a paired pass. -/
def upFeaturePass (pp half : ℕ) : ℕ :=
  let g := featurePass t pp
  if half ≠ 0 then B.gatePasses + g else g

/-- `d` of a sub-tile in a step of `up_phase`. -/
def upProduct (pp half ks sb : ℕ) : ℕ → Float32 :=
  let lin := pp * 2 * B.nKblk + half * B.nKblk + ks
  subTile A t (F.a (2 * tile + 1) t.wg lin sb) (F.w (2 * tile + 1) t.wg lin sb)

/-- `s0` and `s1` of a sub-tile in a step of `up_phase`. -/
def upScale (pp half ks sb dr : ℕ) : Float32 :=
  let featBase := upFeaturePass B t pp half * nFeat
  let e := X.expert tile
  let ws := X.upWScales (e * (B.nUp / 128) * B.nKblk + featBase / 128 * B.nKblk + ks)
  ws * rowScale B X tile (rowOf t sb (dr / 2 % 2)) ks

/-- What a step of `up_phase` makes of the accumulators of its half. -/
def upAdd (pp half ks : ℕ) (acc : ℕ → ℕ → Float32) (sb dr : ℕ) : Float32 :=
  A.macc (acc sb dr) (upProduct B A F tile t pp half ks sb dr) (upScale B X tile t pp half ks sb dr)

/-- A step of `up_phase`. -/
def upStep (pp half ks : ℕ) (acc : UpAccs) : UpAccs :=
  if half = 0 then { acc with g := upAdd B X A F tile t pp half ks acc.g }
  else { acc with u := upAdd B X A F tile t pp half ks acc.u }

/-- The accumulators at the end of a paired pass. -/
def upPass (pp : ℕ) : UpAccs :=
  (List.range 2).foldl (fun acc half =>
    (List.range B.nKblk).foldl (fun acc ks => upStep B X A F tile t pp half ks acc) acc)
    ⟨fun _ _ => 0, fun _ _ => 0⟩

/-- `acc_u` once gate and up projection are combined. -/
def siluReg (pp sb dr : ℕ) : Float32 :=
  let acc := upPass B X A F tile t pp
  A.fdividef (acc.u sb dr * acc.g sb dr) (1 + A.expf (-(acc.g sb dr)))

/-- `da` of product `j` of a sub-tile in a step of `down_phase`. -/
def downDesc (shm dk sb j : ℕ) : ℕ :=
  makeWgmmaDesc (shm + dk * B.aBlk + sb * (64 * 128) + j * 32) 16 1024 1

/-- A step of `down_phase`; `inter` is shared memory and `as` the scales that the thread reads. -/
def downStep (shm : ℕ) (inter : ℕ → β) (as : ℕ → ℕ → ℕ → Float32) (p dk : ℕ)
    (acc : ℕ → ℕ → Float32) (sb dr : ℕ) : Float32 :=
  let gfp := t.wg + p * numWg
  let featBase := gfp * nFeat
  let e := X.expert tile
  let dws := X.downWScales (e * (B.hDim / 128) * B.dKblk + featBase / 128 * B.dKblk + dk)
  let d := subTile A t (fun j r k => operandByte inter (downDesc B shm dk sb j) r k)
    (F.w (2 * tile + 2) t.wg (p * B.dKblk + dk) sb)
  let as := if rowOf t sb (dr / 2 % 2) < X.rows tile then as dk sb (dr / 2 % 2) else 0
  A.macc (acc sb dr) (d dr) (dws * as)

/-- `acc` at the end of a pass of `down_phase`. -/
def downPass (shm : ℕ) (inter : ℕ → β) (as : ℕ → ℕ → ℕ → Float32) (p : ℕ) : ℕ → ℕ → Float32 :=
  (List.range B.dKblk).foldl
    (fun acc dk => downStep B X A F tile t shm inter as p dk acc) fun _ _ => 0

end Registers

/-! ## The quantized intermediate in shared memory -/

/-- A store of a quantized product by a thread. -/
@[ext]
structure QuantOp where
  t : Tid
  pp : ℕ
  sb : ℕ
  dr : ℕ
deriving DecidableEq

/-- The row of a store. -/
def QuantOp.row (op : QuantOp) : ℕ := rowOf op.t op.sb (op.dr / 2 % 2)

/-- The column of a store. -/
def QuantOp.col (op : QuantOp) : ℕ := colOf op.t op.pp op.dr

section Intermediate

variable (B : Build) (rows shm : ℕ) (t : Tid)

/-- The bytes of `fp8_inter` that a thread clears, 16 at a time. -/
def clearProg : List ℕ :=
  (strided t (B.interShm / 16) 256).flatMap fun i => (List.range 16).map fun b => i * 16 + b

/-- The stores of a thread to `fp8_inter`. -/
def quantProg : List QuantOp :=
  ((List.range (B.gatePasses / numWg) ×ˢ (List.range 2 ×ˢ List.range 32)).map fun p =>
    ⟨t, p.1, p.2.1, p.2.2⟩).filter fun op => op.row < rows

/-- The address in `fp8_inter` of a row and a column. -/
def interAddr (m col : ℕ) : ℕ :=
  let dk := col / 128
  let kk := col % 128
  let sw := (kk / 16) ^^^ (m &&& 7)
  shm + (dk * B.aBlk + m * 128 + sw * 16 + kk % 16)

variable {B rows shm t} {m col : ℕ}

/-- The address is that of the row and the column in swizzled rows of 128 bytes. -/
lemma interAddr_eq (hshm : 1024 ∣ shm) :
    interAddr B shm m col = swizzle128 (shm + (col / 128 * B.aBlk + (m * 128 + col % 128))) := by
  have hbase : 1024 ∣ shm + col / 128 * B.aBlk := by
    rw [Build.aBlk_eq]
    omega
  have hcol : m * 128 + col % 128 = m * 128 + col % 128 / 16 * 16 + col % 128 % 16 := by omega
  have hphase : m &&& 7 = m % 8 := Nat.and_two_pow_sub_one_eq_mod m 3
  rw [← Nat.add_assoc, hcol, swizzle128_chunk hbase (by omega) (Nat.mod_lt _ (by decide))]
  unfold interAddr
  rw [hphase]
  ring

/-- Different rows and columns have different addresses. -/
lemma interAddr_inj (hshm : 1024 ∣ shm) {m' col' : ℕ} (hm : m < 128) (hm' : m' < 128)
    (heq : interAddr B shm m col = interAddr B shm m' col') : m = m' ∧ col = col' := by
  rw [interAddr_eq hshm, interAddr_eq hshm, swizzle128_inj, Build.aBlk_eq] at heq
  omega

/-- The addresses of the tile lie in `fp8_inter`. -/
lemma exists_interAddr (hshm : 1024 ∣ shm) (hm : m < 128) (hcol : col / 128 < B.dKblk) :
    ∃ x < B.interShm, interAddr B shm m col = shm + x := by
  have hrow := congrArg (· / 128) (show interAddr B shm m col = _ from interAddr_eq hshm)
  have hblocks := rowMajor_lt hcol (show m * 128 + col % 128 < B.aBlk by
    rw [Build.aBlk_eq]
    omega)
  refine ⟨interAddr B shm m col - shm, ?_, ?_⟩
  · simp only [swizzle128_div] at hrow
    unfold Build.interShm
    rw [Build.aBlk_eq] at hrow hblocks ⊢
    omega
  · exact (Nat.add_sub_cancel' (Nat.le_add_right shm _)).symm

/-- A thread clears the bytes of its chunks of 16. -/
lemma mem_clearProg {x : ℕ} : x ∈ clearProg B t ↔ x < B.interShm ∧ x / 16 % 256 = t := by
  have hsize : B.interShm = B.interShm / 16 * 16 := by
    unfold Build.interShm
    rw [Build.aBlk_eq]
    omega
  have hworker : x / 16 ∈ strided (0 + (t : ℕ)) (B.interShm / 16) 256 ↔ _ :=
    mem_strided_worker t.isLt
  rw [Nat.zero_add, Nat.sub_zero] at hworker
  simp only [clearProg, List.mem_flatMap, List.mem_map, List.mem_range]
  constructor
  · rintro ⟨i, hi, b, hb, rfl⟩
    rw [show (i * 16 + b) / 16 = i by omega] at hworker ⊢
    obtain ⟨-, hlt, hmod⟩ := hworker.mp hi
    exact ⟨by omega, hmod⟩
  · rintro ⟨hlt, hmod⟩
    exact ⟨x / 16, hworker.mpr ⟨Nat.zero_le _, by omega, hmod⟩, x % 16, Nat.mod_lt _ (by decide),
      Nat.div_add_mod' x 16⟩

/-- Every byte of `fp8_inter` is cleared by one thread, once. -/
lemma covers_clearProg : Covers (clearProg B) (· < B.interShm) where
  nodup_prog t := by
    refine List.nodup_flatMap.mpr ⟨fun i _ => List.nodup_range.map fun b b' heq =>
      Nat.add_left_cancel heq, (nodup_strided (by decide)).imp fun hne => ?_⟩
    refine List.disjoint_left.mpr fun x hx hx' => hne ?_
    obtain ⟨b, hb, rfl⟩ := List.mem_map.mp hx
    obtain ⟨b', hb', heq⟩ := List.mem_map.mp hx'
    rw [List.mem_range] at hb hb'
    omega
  exists_thread x hx := ⟨⟨x / 16 % 256, Nat.mod_lt _ (by decide)⟩, mem_clearProg.mpr ⟨hx, rfl⟩⟩
  sound _ _ hx := (mem_clearProg.mp hx).1
  unique _ _ _ hx hx' := Fin.ext ((mem_clearProg.mp hx).2.symm.trans (mem_clearProg.mp hx').2)

/-- The values that a thread quantizes, in the rows of the tile. -/
lemma mem_quantProg {op : QuantOp} : op ∈ quantProg B rows t ↔ op.t = t ∧ op.row < rows ∧
    op.pp < B.gatePasses / numWg ∧ op.sb < 2 ∧ op.dr < 32 := by
  simp only [quantProg, List.mem_filter, List.mem_map, List.mem_product, List.mem_range,
    Prod.exists, decide_eq_true_eq]
  constructor
  · rintro ⟨⟨pp, sb, dr, ⟨hpp, hsb, hdr⟩, rfl⟩, hrow⟩
    exact ⟨rfl, hrow, hpp, hsb, hdr⟩
  · rintro ⟨rfl, hrow, hpp, hsb, hdr⟩
    exact ⟨⟨op.pp, op.sb, op.dr, ⟨hpp, hsb, hdr⟩, rfl⟩, hrow⟩

/-- Every store to `fp8_inter` is made by one thread, once. -/
lemma covers_quantProg : Covers (quantProg B rows) fun op => op.row < rows ∧
    op.pp < B.gatePasses / numWg ∧ op.sb < 2 ∧ op.dr < 32 where
  nodup_prog t := by
    refine (List.Nodup.map ?_ (List.nodup_range.product
      (List.nodup_range.product List.nodup_range))).filter _
    rintro ⟨pp, sb, dr⟩ ⟨pp', sb', dr'⟩ heq
    obtain ⟨-, rfl, rfl, rfl⟩ := QuantOp.mk.inj heq
    rfl
  exists_thread op hop := ⟨op.t, mem_quantProg.mpr ⟨rfl, hop⟩⟩
  sound _ _ hop := (mem_quantProg.mp hop).2
  unique _ _ _ hop hop' := (mem_quantProg.mp hop).1.symm.trans (mem_quantProg.mp hop').1

/-- Every row and every column has a store. -/
lemma exists_quantOp (hm : m < 128) (hcol : col < B.nHalf) (hB : 128 ∣ B.nHalf) :
    ∃ op : QuantOp, op.row = m ∧ op.col = col ∧ op.pp < B.gatePasses / numWg ∧ op.sb < 2 ∧
      op.dr < 32 := by
  obtain ⟨t, sb, half, dr, ⟨hsb, -, -⟩, hrow, hdr, rfl, hcolumn⟩ := exists_register
    (B := ⟨B.nHalf, 2, B.passesPerWg⟩) (col / 128) hm (Nat.mod_lt col (by decide : 0 < 128))
  refine ⟨⟨t, col / 128, sb, dr⟩, hrow, hcolumn.trans (Nat.div_add_mod' col 128), ?_, hsb, hdr⟩
  unfold Build.gatePasses nFeat numWg
  dsimp only
  omega

/-- The digits of a row of the tile. -/
lemma row_digits {s a b h s' a' b' h' : ℕ} (ha : a < 4) (hb : b < 8) (hh : h < 2) (ha' : a' < 4)
    (hb' : b' < 8) (hh' : h' < 2)
    (heq : s * 64 + (a * 16 + b + h * 8) = s' * 64 + (a' * 16 + b' + h' * 8)) :
    s = s' ∧ a = a' ∧ b = b' ∧ h = h' := by omega

/-- The digits of a column of the intermediate. -/
lemma col_digits {g l b d g' l' b' d' : ℕ} (hl : l < 4) (hb : b < 2) (hd : d < 8) (hl' : l' < 4)
    (hb' : b' < 2) (hd' : d' < 8)
    (heq : g * 64 + l * 2 + b + d * 8 = g' * 64 + l' * 2 + b' + d' * 8) :
    g = g' ∧ l = l' ∧ b = b' ∧ d = d' := by omega

/-- A store is determined by its row and its column. -/
lemma quantOp_inj {op op' : QuantOp} (hdr : op.dr < 32) (hdr' : op'.dr < 32)
    (hrow : op.row = op'.row) (hcol : op.col = op'.col) : op = op' := by
  have ht := op.t.isLt
  have ht' := op'.t.isLt
  obtain ⟨hsb, hwarp, hlane, hhalf⟩ := row_digits (Nat.mod_lt _ (by decide)) (by omega)
    (Nat.mod_lt _ (by decide)) (Nat.mod_lt _ (by decide)) (by omega) (Nat.mod_lt _ (by decide)) hrow
  obtain ⟨hpass, hquad, hparity, hblock⟩ := col_digits (Nat.mod_lt _ (by decide))
    (Nat.mod_lt _ (by decide)) (by omega) (Nat.mod_lt _ (by decide)) (Nat.mod_lt _ (by decide))
    (by omega) hcol
  simp only [featurePass, Tid.wg, numWg] at hpass
  refine QuantOp.ext (Fin.ext ?_) ?_ hsb ?_ <;> omega

end Intermediate

/-! ## Runs of the tile loop -/

/-- The tile loop of a block: the operands and tiles, where its shared memory lies and what it
holds at the start. -/
structure TileLoop (B : Build) (β : Type*) extends ExpertData β where
  tiled : B.Tiled
  tiles : ℕ
  shm : ℕ
  /-- what is done to shared memory outside the rings -/
  noise : RingConfig → Worker → RingOp → (ℕ → β) → ℕ → β
  bar : Fin 2 → ℕ → PhaseBarrier.State
  mem₀ : ℕ → β
  interScales₀ : ℕ → Float32
  shm_dvd : 1024 ∣ shm
  shm_le : shm + B.shmTotal ≤ 2 ^ 18
  rows_le (tile : ℕ) : rows tile ≤ 128
  expert_lt : ∀ tile < tiles, expert tile < B.eLocal

namespace TileLoop

variable {B : Build} (L : TileLoop B β)

/-- The operand pipelines of the block. -/
def machine : Machine Party Worker RingOp (RingMem × (ℕ → β)) (ℕ → ℕ) :=
  shmMachine L.tiled L.toTileData L.shm L.tiles L.noise

/-- The constants of the epilogue of `up_phase`. -/
def scaleBuild (_ : TileLoop B β) : ScaleBuild := ⟨B.nHalf, B.mSubs, B.passesPerWg⟩

/-- `byte` is what `read` finds in some configuration of the pipelines in which step `lin` of epoch
`n` is read. -/
def Fetches (n : ℕ) (w : Fin 2) (lin : ℕ) (read : (ℕ → β) → β) (byte : β) : Prop :=
  ∃ c, L.machine.Reachable (unrecorded L.tiles L.bar, L.mem₀) c ∧ c.epoch .block = n ∧
    Reading (B.rings L.tiled) c.base n w lin ∧ byte = read c.mem.2

end TileLoop

/-- A run of the tile loop: the bytes that are fetched, the products that the scales are about, the
scales that are read, and the order of the stores to `fp8_inter`. -/
structure TileLoopRun {B : Build} (L : TileLoop B β) (A : TileArith β) extends Fetched β where
  scales : ScaleTiles L.scaleBuild
  /-- `inv0` and `inv1`, by tile, thread, pass, sub-tile and half -/
  inv : ℕ → Tid → ℕ → ℕ → ℕ → Float32
  /-- `as0` and `as1` of `down_phase`, by tile, thread, pass, block, sub-tile and half -/
  as : ℕ → Tid → ℕ → ℕ → ℕ → ℕ → Float32
  /-- shared memory before the tile -/
  before : ℕ → ℕ → β
  clears : ℕ → List (Tid × ℕ)
  stores : ℕ → List (Tid × QuantOp)
  fetches_a : ∀ tile < L.tiles, ∀ v, ∀ lin < (B.rings L.tiled).wgTiles, ∀ sb < 2, ∀ j < 4,
    ∀ r < 64, ∀ k < 32, L.Fetches (2 * tile + 1) v lin
      (fun mem => operandByte mem (upDesc B L.shm lin sb j) r k)
      (a (2 * tile + 1) v lin sb j r k)
  fetches_w : ∀ n, 0 < n → n ≤ 2 * L.tiles → ∀ v, ∀ lin < (B.rings L.tiled).steps n, ∀ sb < 2,
    ∀ j < 4, ∀ r < 64, ∀ k < 32, L.Fetches n v lin
      (fun mem => operandByte mem (weightDesc L.tiled L.shm n v lin j) r k) (w n v lin sb j r k)
  scales_rows : scales.rows = L.rows
  scales_acc : ∀ tile t, ∀ pp < B.gatePasses / numWg, ∀ sb < 2, ∀ dr < 32,
    scales.acc tile (rowOf t sb (dr / 2 % 2)) (colOf t pp dr) =
      siluReg B L.toExpertData A toFetched tile t pp sb dr
  inv_read : ∀ tile < L.tiles, ∀ t, ∀ pp < B.gatePasses / numWg, ∀ sb < 2, ∀ half < 2,
    rowOf t sb half < L.rows tile → ∃ c, (scales.machine L.tiles).Reachable L.interScales₀ c ∧
      c.epoch () = 2 * tile + 1 ∧ c.Head () t (.quantize pp sb half) ∧
      inv tile t pp sb half = (scales.effect c () t (.quantize pp sb half)).2.inv sb half
  as_read : ∀ tile < L.tiles, ∀ t, ∀ p < B.passesPerWg, ∀ dk < B.dKblk, ∀ sb < 2, ∀ half < 2,
    rowOf t sb half < L.rows tile → ∃ c, (scales.machine L.tiles).Reachable L.interScales₀ c ∧
      c.epoch () = 2 * tile + 2 ∧ c.Head () t (.scaleUse p dk sb half) ∧
      as tile t p dk sb half = (scales.effect c () t (.scaleUse p dk sb half)).2.as sb half
  clears_interleaves (tile : ℕ) : Interleaves (clearProg B) (clears tile)
  stores_interleaves (tile : ℕ) : Interleaves (quantProg B (L.rows tile)) (stores tile)

namespace TileLoopRun

variable {B : Build} {L : TileLoop B β} {A : TileArith β} (run : TileLoopRun L A)

/-- Shared memory when `up_phase` of a tile is over. -/
def inter (tile : ℕ) : ℕ → β :=
  storeAll (fun op => interAddr B L.shm op.row op.col)
    (fun op => A.e4m3 (siluReg B L.toExpertData A run.toFetched tile op.t op.pp op.sb op.dr *
      run.inv tile op.t op.pp op.sb (op.dr / 2 % 2)))
    (storeAll (fun x => L.shm + x) (fun _ => L.zero) (run.before tile)
      ((run.clears tile).map Prod.snd))
    ((run.stores tile).map Prod.snd)

/-- Register `dr` of a sub-tile at the end of pass `p` of `down_phase`. -/
def downReg (tile : ℕ) (t : Tid) (p sb dr : ℕ) : Float32 :=
  downPass B L.toExpertData A run.toFetched tile t L.shm (run.inter tile)
    (fun dk sb half => run.as tile t p dk sb half) p sb dr

end TileLoopRun

/-! ## Loops of a thread -/

section Loops

variable {A : TileArith β} {t : Tid} {dr : ℕ}

/-- The products of a sub-tile, at one register. -/
lemma subTile_eq {a b : ℕ → ℕ → ℕ → β} {α γ : ℕ → β}
    (ha : ∀ j < 4, ∀ k < 32, a j (fragRow t dr) k = α (j * 32 + k))
    (hb : ∀ j < 4, ∀ k < 32, b j (fragCol t dr) k = γ (j * 32 + k)) :
    subTile A t a b dr = A.blockDot α γ := by
  have hreg : subTile A t a b dr = (List.range 4).foldl (fun d j =>
      A.mma (fun k => a j (fragRow t dr) k) (fun k => b j (fragCol t dr) k) d) 0 :=
    (List.foldl_hom (fun d : ℕ → Float32 => d dr) fun _ _ => rfl).symm
  refine hreg.trans (List.foldl_ext _ _ _ fun d j hj => ?_)
  have hj := List.mem_range.mp hj
  congr 1
  · exact funext fun k => ha j hj k k.isLt
  · exact funext fun k => hb j hj k k.isLt

variable {B : Build} {X : ExpertData β} {F : Fetched β} {tile pp sb : ℕ}

/-- The first half of a paired pass accumulates the gate, the second one the up projection. -/
lemma upPass_eq : upPass B X A F tile t pp =
    { g := (List.range B.nKblk).foldl (fun acc ks => upAdd B X A F tile t pp 0 ks acc)
        fun _ _ => 0
      u := (List.range B.nKblk).foldl (fun acc ks => upAdd B X A F tile t pp 1 ks acc)
        fun _ _ => 0 } := by
  have hgate : ∀ acc : UpAccs, (List.range B.nKblk).foldl
      (fun acc ks => upStep B X A F tile t pp 0 ks acc) acc = { acc with
        g := (List.range B.nKblk).foldl (fun acc ks => upAdd B X A F tile t pp 0 ks acc) acc.g } :=
    fun acc => List.foldl_hom (fun g => ({ acc with g := g } : UpAccs)) fun _ _ => rfl
  have hup : ∀ acc : UpAccs, (List.range B.nKblk).foldl
      (fun acc ks => upStep B X A F tile t pp 1 ks acc) acc = { acc with
        u := (List.range B.nKblk).foldl (fun acc ks => upAdd B X A F tile t pp 1 ks acc) acc.u } :=
    fun acc => List.foldl_hom (fun u => ({ acc with u := u } : UpAccs)) fun _ _ => rfl
  unfold upPass
  rw [show List.range 2 = [0, 1] from rfl]
  simp only [List.foldl_cons, List.foldl_nil, hgate, hup]

end Loops

/-! ## What the registers hold -/

section Rows

variable {B : Build} {L : TileLoop B β} {A : TileArith β} (run : TileLoopRun L A)
  {tile pp p sb dr lin j r k half row col dk : ℕ} {t : Tid} {v : Fin 2}

/-- A fragment has 64 rows. -/
lemma fragRow_lt : fragRow t dr < 64 := by
  unfold fragRow stageRow
  omega

/-- And 64 columns. -/
lemma fragCol_lt (hdr : dr < 32) : fragCol t dr < 64 := by
  unfold fragCol stageCol
  omega

/-- The row of a register in its tile. -/
lemma rowOf_eq : rowOf t sb (dr / 2 % 2) = sb * 64 + fragRow t dr := rfl

/-- The column of a register in the intermediate. -/
lemma colOf_eq : colOf t pp dr = featurePass t pp * 64 + fragCol t dr := by
  unfold colOf fragCol stageCol
  omega

/-- The up phase of a tile. -/
lemma tileOf_up (tile : ℕ) : RingBuild.tileOf (2 * tile + 1) = tile := by
  unfold RingBuild.tileOf
  omega

/-- The down phase of a tile. -/
lemma tileOf_down (tile : ℕ) : RingBuild.tileOf (2 * tile + 2) = tile := by
  unfold RingBuild.tileOf
  omega

/-- The up phases are the odd ones. -/
lemma isUp_up (tile : ℕ) : RingBuild.isUp (2 * tile + 1) = true := by
  unfold RingBuild.isUp
  simp only [decide_eq_true_eq]
  omega

/-- The down phases are the even ones. -/
lemma isUp_down (tile : ℕ) : RingBuild.isUp (2 * tile + 2) = false := by
  unfold RingBuild.isUp
  simp only [decide_eq_false_iff_not]
  omega

variable (htile : tile < L.tiles)

include htile

/-- The activation bytes of a row of the tile. -/
lemma TileLoopRun.a_eq (hlin : lin < (B.rings L.tiled).wgTiles) (hsb : sb < 2) (hj : j < 4)
    (hr : r < 64) (hk : k < 32) (hrow : sb * 64 + r < L.rows tile) :
    run.a (2 * tile + 1) v lin sb j r k = L.actFp8 (L.fi tile (sb * 64 + r) / B.topK * B.kDim +
      (lin % B.nKblk * 128 + (j * 32 + k))) := by
  obtain ⟨c, h, hepoch, hread, hbyte⟩ := run.fetches_a tile htile v lin hlin sb hsb j hj r hr k hk
  rw [← hepoch] at hread
  refine hbyte.trans ((upOperand_eq L.shm_dvd L.shm_le h hread (hepoch ▸ isUp_up tile) hsb hj hr
    hk).trans ?_)
  rw [hepoch, tileOf_up]
  exact if_pos hrow

/-- The weight bytes of a step of `up_phase`. -/
lemma TileLoopRun.w_up_eq (hlin : lin < (B.rings L.tiled).wgTiles) (hsb : sb < 2) (hj : j < 4)
    (hr : r < 64) (hk : k < 32) : run.w (2 * tile + 1) v lin sb j r k =
      L.upWFp8 ((L.expert tile * B.nUp + (((B.rings L.tiled).tileGfpKs v lin).1 * 64 + r)) *
        B.kDim + (((B.rings L.tiled).tileGfpKs v lin).2 * 128 + (j * 32 + k))) := by
  have hsteps : (B.rings L.tiled).steps (2 * tile + 1) = (B.rings L.tiled).wgTiles :=
    if_pos (isUp_up tile)
  obtain ⟨c, h, hepoch, hread, hbyte⟩ := run.fetches_w (2 * tile + 1) (by omega) (by omega) v lin
    (hsteps ▸ hlin) sb hsb j hj r hr k hk
  rw [← hepoch] at hread
  rw [hbyte]
  dsimp only
  rw [← hepoch, upWeight_eq L.shm_dvd L.shm_le h hread L.expert_lt
    (hepoch ▸ isUp_up tile) hj hr hk, hepoch, tileOf_up]

/-- The weight bytes of a step of `down_phase`. -/
lemma TileLoopRun.w_down_eq (hlin : lin < (B.rings L.tiled).wgTotal) (hsb : sb < 2) (hj : j < 4)
    (hr : r < 64) (hk : k < 32) : run.w (2 * tile + 2) v lin sb j r k =
      L.downWFp8 ((L.expert tile * B.hDim + (((B.rings L.tiled).downGfpDk v lin).1 * 64 + r)) *
        B.nHalf + (((B.rings L.tiled).downGfpDk v lin).2 * 128 + (j * 32 + k))) := by
  have hsteps : (B.rings L.tiled).steps (2 * tile + 2) = (B.rings L.tiled).wgTotal :=
    if_neg (isUp_down tile ▸ Bool.false_ne_true)
  obtain ⟨c, h, hepoch, hread, hbyte⟩ := run.fetches_w (2 * tile + 2) (by omega) (by omega) v lin
    (hsteps ▸ hlin) sb hsb j hj r hr k hk
  rw [← hepoch] at hread
  rw [hbyte]
  dsimp only
  rw [← hepoch, downWeight_eq L.shm_dvd L.shm_le h hread L.expert_lt
    (hepoch ▸ isUp_down tile) hj hr hk, hepoch, tileOf_down]

/-- The products of a step of `up_phase`. -/
lemma TileLoopRun.upProduct_eq (hpp : pp < B.gatePasses / numWg) (hhalf : half < 2) {ks : ℕ}
    (hks : ks < B.nKblk) (hsb : sb < 2) (hdr : dr < 32)
    (hrow : rowOf t sb (dr / 2 % 2) < L.rows tile) :
    upProduct B A run.toFetched tile t pp half ks sb dr = A.blockDot
      (fun x => L.actFp8 (L.fi tile (rowOf t sb (dr / 2 % 2)) / B.topK * B.kDim + (ks * 128 + x)))
      fun x => L.upWFp8 ((L.expert tile * B.nUp + (upFeaturePass B t pp half * 64 + fragCol t dr)) *
        B.kDim + (ks * 128 + x)) := by
  have hlin : pp * 2 * B.nKblk + half * B.nKblk + ks < (B.rings L.tiled).wgTiles := by
    have hlt := rowMajor_lt hpp (rowMajor_lt hhalf hks)
    have hsplit : pp * 2 * B.nKblk + half * B.nKblk + ks =
        pp * (2 * B.nKblk) + (half * B.nKblk + ks) := by ring
    rw [hsplit]
    exact hlt.trans_eq (Nat.mul_assoc _ _ _).symm
  have hblock : (pp * 2 * B.nKblk + half * B.nKblk + ks) % B.nKblk = ks := by
    rw [← Nat.add_mul, rowMajor_mod hks]
  have hgfpks : (B.rings L.tiled).tileGfpKs t.wg (pp * 2 * B.nKblk + half * B.nKblk + ks) =
      (upFeaturePass B t pp half, ks) := tileGfpKs_loop t.wg pp hhalf hks
  refine subTile_eq (fun j hj k hk => ?_) fun j hj k hk => ?_
  · rw [run.a_eq htile hlin hsb hj fragRow_lt hk hrow, hblock]
    rfl
  · rw [run.w_up_eq htile hlin hsb hj (fragCol_lt hdr) hk, hgfpks]

omit htile in
/-- The scales of a step of `up_phase`. -/
lemma upScale_eq {ks : ℕ} (hdr : dr < 32) (hrow : rowOf t sb (dr / 2 % 2) < L.rows tile) :
    upScale B L.toExpertData tile t pp half ks sb dr =
      L.upWScales (L.expert tile * (B.nUp / 128) * B.nKblk +
        (upFeaturePass B t pp half * 64 + fragCol t dr) / 128 * B.nKblk + ks) *
      L.actScales (L.fi tile (rowOf t sb (dr / 2 % 2)) / B.topK * B.nKblk + ks) := by
  have hc := fragCol_lt (t := t) hdr
  have hgroup : (upFeaturePass B t pp half * 64 + fragCol t dr) / 128 =
      upFeaturePass B t pp half * nFeat / 128 := by
    unfold nFeat
    omega
  unfold upScale rowScale
  rw [if_pos hrow, hgroup]

/-- The accumulators of a half hold a feature of the fused projection. -/
lemma TileLoopRun.upAdd_foldl (hpp : pp < B.gatePasses / numWg) (hhalf : half < 2) (hsb : sb < 2)
    (hdr : dr < 32) (hrow : rowOf t sb (dr / 2 % 2) < L.rows tile) :
    (List.range B.nKblk).foldl
        (fun acc ks => upAdd B L.toExpertData A run.toFetched tile t pp half ks acc)
        (fun _ _ => 0) sb dr =
      L.upFeature A B (L.expert tile) (L.fi tile (rowOf t sb (dr / 2 % 2)) / B.topK)
        (upFeaturePass B t pp half * 64 + fragCol t dr) := by
  have hreg : (List.range B.nKblk).foldl
      (fun acc ks => upAdd B L.toExpertData A run.toFetched tile t pp half ks acc)
      (fun _ _ => 0) sb dr = (List.range B.nKblk).foldl (fun x ks => A.macc x
        (upProduct B A run.toFetched tile t pp half ks sb dr)
        (upScale B L.toExpertData tile t pp half ks sb dr)) 0 :=
    (List.foldl_hom (fun acc : ℕ → ℕ → Float32 => acc sb dr) fun _ _ => rfl).symm
  refine hreg.trans (List.foldl_ext _ _ _ fun x ks hks => ?_)
  rw [run.upProduct_eq htile hpp hhalf (List.mem_range.mp hks) hsb hdr hrow,
    upScale_eq hdr hrow]

/-- The registers hold the intermediate activation. -/
lemma TileLoopRun.siluReg_eq (hpp : pp < B.gatePasses / numWg) (hsb : sb < 2) (hdr : dr < 32)
    (hrow : rowOf t sb (dr / 2 % 2) < L.rows tile) :
    siluReg B L.toExpertData A run.toFetched tile t pp sb dr =
      L.activated A B (L.expert tile) (L.fi tile (rowOf t sb (dr / 2 % 2)) / B.topK)
        (colOf t pp dr) := by
  have hgate := run.upAdd_foldl htile hpp Nat.two_pos hsb hdr hrow
  have hup := run.upAdd_foldl htile hpp Nat.one_lt_two hsb hdr hrow
  have hfirst : upFeaturePass B t pp 0 * 64 + fragCol t dr = colOf t pp dr := colOf_eq.symm
  have hsecond : upFeaturePass B t pp 1 * 64 + fragCol t dr = B.nHalf + colOf t pp dr := by
    obtain ⟨q, hq⟩ := L.tiled.nHalf_dvd
    rw [colOf_eq]
    unfold upFeaturePass Build.gatePasses nFeat
    rw [if_pos Nat.one_ne_zero]
    omega
  unfold siluReg
  rw [upPass_eq]
  dsimp only
  rw [hgate, hup, hfirst, hsecond]
  rfl

/-- The maximum that a block of a row is scaled by. -/
lemma TileLoopRun.blockMax_eq (hdk : dk < B.gatePasses / numWg) (hrow : row < L.rows tile) :
    run.scales.blockMax tile row dk =
      L.activatedMax A B (L.expert tile) (L.fi tile row / B.topK) dk := by
  refine List.foldl_ext _ _ _ fun mx x hx => ?_
  have hlt : row < 64 * L.scaleBuild.mSubs := by
    have := L.rows_le tile
    simp only [TileLoop.scaleBuild, Build.mSubs_eq]
    omega
  obtain ⟨t, sb, half, dr, ⟨hsb, -, -⟩, rfl, hdr, rfl, hcol⟩ :=
    exists_register dk hlt (List.mem_range.mp hx)
  have hsb : sb < 2 := by simpa only [TileLoop.scaleBuild, Build.mSubs_eq] using hsb
  rw [← hcol, run.scales_acc tile t dk hdk sb hsb dr hdr, run.siluReg_eq htile hdk hsb hdr hrow]

/-- The factor by which a thread quantizes. -/
lemma TileLoopRun.inv_eq (hpp : pp < B.gatePasses / numWg) (hsb : sb < 2) (hhalf : half < 2)
    (hrow : rowOf t sb half < L.rows tile) : run.inv tile t pp sb half = quantFactor Float32.div
      (L.activatedMax A B (L.expert tile) (L.fi tile (rowOf t sb half) / B.topK) pp) := by
  obtain ⟨c, h, hepoch, hhead, hinv⟩ := run.inv_read tile htile t pp hpp sb hsb half hhalf hrow
  have hmem := mem_of_quantize h hhead
  rw [hepoch, tileOf_up, run.blockMax_eq htile hpp hrow] at hmem
  rw [hinv]
  simp only [ScaleTiles.effect, setSub, Function.update_self, hmem]

/-- The scale that a thread multiplies with in `down_phase`. -/
lemma TileLoopRun.as_eq (hp : p < B.passesPerWg) (hdk : dk < B.dKblk) (hsb : sb < 2)
    (hhalf : half < 2) (hrow : rowOf t sb half < L.rows tile) :
    run.as tile t p dk sb half = downScale Float32.div
      (L.activatedMax A B (L.expert tile) (L.fi tile (rowOf t sb half) / B.topK) dk) := by
  have hgroups : dk < B.gatePasses / numWg := by
    unfold Build.dKblk at hdk
    unfold Build.gatePasses nFeat numWg
    omega
  obtain ⟨c, h, hepoch, hhead, has⟩ := run.as_read tile htile t p hp dk hdk sb hsb half hhalf hrow
  have hmem := mem_of_scaleUse h hhead
  rw [hepoch, tileOf_down, run.blockMax_eq htile hgroups hrow] at hmem
  rw [has]
  simp only [ScaleTiles.effect, setSub, Function.update_self, hmem]

/-- Behind `up_phase` shared memory holds the quantized intermediate of the rows of the tile. -/
lemma TileLoopRun.inter_eq (hrow : row < L.rows tile) (hcol : col < B.nHalf) :
    run.inter tile (interAddr B L.shm row col) =
      L.activatedByte A B (L.expert tile) (L.fi tile row / B.topK) col := by
  have hle := L.rows_le tile
  obtain ⟨op, rfl, rfl, hpp, hsb, hdr⟩ := exists_quantOp (B := B) (show row < 128 by omega) hcol
    L.tiled.nHalf_dvd
  have hcovers : Covers (quantProg B (L.rows tile)) _ := covers_quantProg
  have hmem := (hcovers.mem_iff (run.stores_interleaves tile)).mpr ⟨hrow, hpp, hsb, hdr⟩
  have hinj : ∀ x ∈ (run.stores tile).map Prod.snd, ∀ y ∈ (run.stores tile).map Prod.snd,
      interAddr B L.shm x.row x.col = interAddr B L.shm y.row y.col → x = y := by
    intro x hx y hy heq
    obtain ⟨hxrow, -, -, hxdr⟩ := (hcovers.mem_iff (run.stores_interleaves tile)).mp hx
    obtain ⟨hyrow, -, -, hydr⟩ := (hcovers.mem_iff (run.stores_interleaves tile)).mp hy
    obtain ⟨hrows, hcols⟩ := interAddr_inj L.shm_dvd (by omega) (by omega) heq
    exact quantOp_inj hxdr hydr hrows hcols
  have hstore : run.inter tile (interAddr B L.shm op.row op.col) =
      A.e4m3 (siluReg B L.toExpertData A run.toFetched tile op.t op.pp op.sb op.dr *
        run.inv tile op.t op.pp op.sb (op.dr / 2 % 2)) :=
    storeAll_of_mem (hcovers.nodup (run.stores_interleaves tile)) hinj hmem
  refine hstore.trans ?_
  have hgroup : op.col / 128 = op.pp := by
    obtain ⟨x, hx, hcolumn⟩ := colOf_mem op.t op.pp hdr
    exact (congrArg (· / 128) hcolumn).trans (rowMajor_div hx)
  rw [run.siluReg_eq htile hpp hsb hdr hrow,
    run.inv_eq htile hpp hsb (Nat.mod_lt _ Nat.two_pos) hrow]
  unfold ExpertData.activatedByte
  rw [hgroup]
  rfl

omit htile in
/-- Below the last row of the tile it holds zeros. -/
lemma TileLoopRun.inter_eq_zero (hrow : L.rows tile ≤ row) (hlt : row < 128)
    (hcol : col < B.nHalf) : run.inter tile (interAddr B L.shm row col) = L.zero := by
  have hcovers : Covers (quantProg B (L.rows tile)) _ := covers_quantProg
  have hclears := covers_clearProg (B := B)
  have hle := L.rows_le tile
  have hkeep : run.inter tile (interAddr B L.shm row col) =
      storeAll (fun x => L.shm + x) (fun _ => L.zero) (run.before tile)
        ((run.clears tile).map Prod.snd) (interAddr B L.shm row col) := by
    refine storeAll_of_forall_ne fun op hop heq => ?_
    obtain ⟨hoprow, -⟩ := (hcovers.mem_iff (run.stores_interleaves tile)).mp hop
    obtain ⟨hrows, -⟩ := interAddr_inj L.shm_dvd (by omega) hlt heq
    omega
  have hblock : col / 128 < B.dKblk := by
    obtain ⟨q, hq⟩ := L.tiled.nHalf_dvd
    unfold Build.dKblk
    omega
  obtain ⟨x, hx, haddr⟩ := exists_interAddr L.shm_dvd hlt hblock
  have hinj : ∀ y ∈ (run.clears tile).map Prod.snd, ∀ z ∈ (run.clears tile).map Prod.snd,
      L.shm + y = L.shm + z → y = z := fun _ _ _ _ heq => Nat.add_left_cancel heq
  rw [hkeep, haddr]
  exact storeAll_of_mem (hclears.nodup (run.clears_interleaves tile)) hinj
    ((hclears.mem_iff (run.clears_interleaves tile)).mpr hx)

omit htile in
/-- The descriptors of `down_phase` name the rows of the quantized intermediate. -/
lemma operandByte_downDesc {inter : ℕ → β} (hdk : dk < B.dKblk) (hsb : sb < 2) (hj : j < 4)
    (hk : k < 32) : operandByte inter (downDesc B L.shm dk sb j) r k =
      inter (interAddr B L.shm (sb * 64 + r) (dk * 128 + (j * 32 + k))) := by
  have htotal := B.transient_le
  have hpersist := B.persist_le
  have hfits := L.shm_le
  have hblocks := rowMajor_lt hdk (show sb * (64 * 128) + j * 32 < B.aBlk by
    rw [Build.aBlk_eq]
    omega)
  have hbase : 1024 ∣ L.shm + dk * B.aBlk := by
    have := L.shm_dvd
    rw [Build.aBlk_eq]
    omega
  have hcol : (dk * 128 + (j * 32 + k)) / 128 = dk ∧
      (dk * 128 + (j * 32 + k)) % 128 = j * 32 + k := by omega
  unfold downDesc
  rw [operandByte_desc hbase (by omega) (by unfold Build.interShm at hpersist; omega),
    interAddr_eq L.shm_dvd, hcol.1, hcol.2]
  congr 2
  ring

/-- The products of a step of `down_phase`. -/
lemma TileLoopRun.downProduct_eq (hp : p < B.passesPerWg) (hdk : dk < B.dKblk) (hsb : sb < 2)
    (hdr : dr < 32) (hrow : rowOf t sb (dr / 2 % 2) < L.rows tile) :
    subTile A t (fun j r k => operandByte (run.inter tile) (downDesc B L.shm dk sb j) r k)
        (run.w (2 * tile + 2) t.wg (p * B.dKblk + dk) sb) dr =
      A.blockDot (fun x => L.activatedByte A B (L.expert tile)
          (L.fi tile (rowOf t sb (dr / 2 % 2)) / B.topK) (dk * 128 + x))
        fun x => L.downWFp8 ((L.expert tile * B.hDim + ((t.wg + p * numWg) * 64 + fragCol t dr)) *
          B.nHalf + (dk * 128 + x)) := by
  have hlin : p * B.dKblk + dk < (B.rings L.tiled).wgTotal := rowMajor_lt hp hdk
  have hgfpdk : (B.rings L.tiled).downGfpDk t.wg (p * B.dKblk + dk) = (t.wg + p * numWg, dk) :=
    downGfpDk_loop t.wg p hdk
  refine subTile_eq (fun j hj k hk => ?_) fun j hj k hk => ?_
  · have hcol : dk * 128 + (j * 32 + k) < B.nHalf := by
      unfold Build.dKblk at hdk
      omega
    rw [operandByte_downDesc hdk hsb hj hk]
    exact run.inter_eq htile hrow hcol
  · rw [run.w_down_eq htile hlin hsb hj (fragCol_lt hdr) hk, hgfpdk]

/-- The registers of the down projection hold the row function of the expert. -/
lemma TileLoopRun.downReg_eq (hp : p < B.passesPerWg) (hsb : sb < 2) (hdr : dr < 32)
    (hrow : rowOf t sb (dr / 2 % 2) < L.rows tile) : run.downReg tile t p sb dr =
      L.expertRow A B (L.expert tile) (L.fi tile (rowOf t sb (dr / 2 % 2)) / B.topK)
        ((t.wg + p * numWg) * 64 + fragCol t dr) := by
  have hc := fragCol_lt (t := t) hdr
  have hgroup : ((t.wg + p * numWg) * 64 + fragCol t dr) / 128 =
      (t.wg + p * numWg) * nFeat / 128 := by
    unfold nFeat
    omega
  have hreg : run.downReg tile t p sb dr = (List.range B.dKblk).foldl (fun x dk => A.macc x
      (subTile A t (fun j r k => operandByte (run.inter tile) (downDesc B L.shm dk sb j) r k)
        (run.w (2 * tile + 2) t.wg (p * B.dKblk + dk) sb) dr)
      (L.downWScales (L.expert tile * (B.hDim / 128) * B.dKblk +
          (t.wg + p * numWg) * nFeat / 128 * B.dKblk + dk) *
        if rowOf t sb (dr / 2 % 2) < L.rows tile then run.as tile t p dk sb (dr / 2 % 2)
        else 0)) 0 :=
    (List.foldl_hom (fun acc : ℕ → ℕ → Float32 => acc sb dr) fun _ _ => rfl).symm
  refine hreg.trans (List.foldl_ext _ _ _ fun x dk hdk => ?_)
  have hdk := List.mem_range.mp hdk
  rw [run.downProduct_eq htile hp hdk hsb hdr hrow, if_pos hrow,
    run.as_eq htile hp hdk hsb (Nat.mod_lt _ Nat.two_pos) hrow, hgroup]

end Rows

/-! ## There is a run -/

section Existence

variable {B : Build} (L : TileLoop B β)

/-- Every step is read at some time. -/
lemma TileLoop.exists_window {n : ℕ} (hpos : 0 < n) (hle : n ≤ 2 * L.tiles) (v : Fin 2) {lin : ℕ}
    (hlin : lin < (B.rings L.tiled).steps n) :
    ∃ c, L.machine.Reachable (unrecorded L.tiles L.bar, L.mem₀) c ∧ c.epoch .block = n ∧
      Reading (B.rings L.tiled) c.base n v lin := by
  obtain ⟨c, h, hepoch, hhead⟩ := exists_product_head L.tiled L.toTileData L.shm L.tiles L.noise
    L.bar L.mem₀ hpos hle v lin hlin
  have hread := hhead.reading h.base
  rw [wg_wgLeader] at hread
  exact ⟨c, h, hepoch, hepoch ▸ hread⟩

/-- An operation of the epilogue is at some time the next one of its thread. -/
lemma exists_scale_head {S : ScaleBuild} (T : ScaleTiles S) {tiles n : ℕ} (m₀ : ℕ → Float32)
    {t : Tid} {i : InterScaleOp} (hpos : 0 < n) (hle : n ≤ 2 * tiles) (hruns : T.Runs n t i) :
    ∃ c, (T.machine tiles).Reachable m₀ c ∧ c.epoch () = n ∧ c.Head () t i := by
  obtain ⟨c, h, hepoch, hidle⟩ := exists_scales_finished T tiles m₀
  have hran : T.Ran tiles c n t i :=
    .of_finished (hidle t) (hle.trans_eq hepoch.symm) (mem_scaleProgram.mpr ⟨hpos, hruns⟩)
  obtain ⟨c', h', hepoch', hhead, -⟩ := hran.exists_head (scaleMachine_staged T tiles) h
  exact ⟨c', h', hepoch', hhead⟩

/-- Registers with the products of the rows and columns. -/
lemma exists_scales (A : TileArith β) (F : Fetched β) : ∃ T : ScaleTiles L.scaleBuild,
    T.rows = L.rows ∧ ∀ tile t, ∀ pp < B.gatePasses / numWg, ∀ sb < 2, ∀ dr < 32,
      T.acc tile (rowOf t sb (dr / 2 % 2)) (colOf t pp dr) =
        siluReg B L.toExpertData A F tile t pp sb dr := by
  classical
  let acc : ℕ → ℕ → ℕ → Float32 := fun tile row col =>
    if h : ∃ op : QuantOp, op.dr < 32 ∧ op.row = row ∧ op.col = col then
      siluReg B L.toExpertData A F tile h.choose.t h.choose.pp h.choose.sb h.choose.dr
    else 0
  have hrows : ∀ tile, L.rows tile ≤ 64 * L.scaleBuild.mSubs := fun tile => by
    have := L.rows_le tile
    simp only [TileLoop.scaleBuild, Build.mSubs_eq]
    omega
  refine ⟨⟨L.rows, acc, hrows⟩, rfl, fun tile t pp _ sb _ dr hdr => ?_⟩
  have hop : ∃ op : QuantOp, op.dr < 32 ∧ op.row = rowOf t sb (dr / 2 % 2) ∧
      op.col = colOf t pp dr := ⟨⟨t, pp, sb, dr⟩, hdr, rfl, rfl⟩
  have hsame : hop.choose = ⟨t, pp, sb, dr⟩ :=
    quantOp_inj hop.choose_spec.1 hdr hop.choose_spec.2.1 hop.choose_spec.2.2
  simp only [acc, dif_pos hop, hsame]

/-- Who quantizes a row of the tile comes to it. -/
lemma exists_quantize_head {T : ScaleTiles L.scaleBuild} (hrows : T.rows = L.rows)
    {tile pp sb half : ℕ} {t : Tid} (htile : tile < L.tiles) (hpp : pp < B.gatePasses / numWg)
    (hsb : sb < 2) (hhalf : half < 2) (hrow : rowOf t sb half < L.rows tile) :
    ∃ c, (T.machine L.tiles).Reachable L.interScales₀ c ∧ c.epoch () = 2 * tile + 1 ∧
      c.Head () t (.quantize pp sb half) := by
  refine exists_scale_head T _ (Nat.succ_pos _) (by omega) ⟨isUp_up tile, hpp, ?_, hhalf, ?_⟩
  · rwa [TileLoop.scaleBuild, Build.mSubs_eq]
  · rwa [tileOf_up, hrows]

/-- Who needs the scale of a row of the tile comes to it. -/
lemma exists_scaleUse_head {T : ScaleTiles L.scaleBuild} (hrows : T.rows = L.rows)
    {tile p dk sb half : ℕ} {t : Tid} (htile : tile < L.tiles) (hp : p < B.passesPerWg)
    (hdk : dk < B.dKblk) (hsb : sb < 2) (hhalf : half < 2) (hrow : rowOf t sb half < L.rows tile) :
    ∃ c, (T.machine L.tiles).Reachable L.interScales₀ c ∧ c.epoch () = 2 * tile + 2 ∧
      c.Head () t (.scaleUse p dk sb half) := by
  refine exists_scale_head T _ (Nat.succ_pos _) (by omega) ⟨isUp_down tile, hp, hdk, ?_, hhalf, ?_⟩
  · rwa [TileLoop.scaleBuild, Build.mSubs_eq]
  · rwa [tileOf_down, hrows]

/-- The tile loop of every block has a run. -/
theorem TileLoop.exists_run (A : TileArith β) : Nonempty (TileLoopRun L A) := by
  have hwindow : ∀ n v lin, (0 < n ∧ n ≤ 2 * L.tiles) ∧ lin < (B.rings L.tiled).steps n → ∃ c,
      L.machine.Reachable (unrecorded L.tiles L.bar, L.mem₀) c ∧ c.epoch .block = n ∧
        Reading (B.rings L.tiled) c.base n v lin := fun n v lin h =>
    L.exists_window h.1.1 h.1.2 v h.2
  have : Nonempty (Config Party Worker RingOp (RingMem × (ℕ → β)) (ℕ → ℕ)) :=
    ⟨L.machine.init (unrecorded L.tiles L.bar, L.mem₀)⟩
  choose! window hreach hepoch hread using hwindow
  let F : Fetched β :=
    ⟨fun n v lin sb j r k => operandByte (window n v lin).mem.2 (upDesc B L.shm lin sb j) r k,
      fun n v lin _ j r k =>
        operandByte (window n v lin).mem.2 (weightDesc L.tiled L.shm n v lin j) r k⟩
  obtain ⟨T, hrows, hacc⟩ := exists_scales L A F
  have hquantize : ∀ tile t pp sb half, (tile < L.tiles ∧ pp < B.gatePasses / numWg ∧ sb < 2 ∧
      half < 2 ∧ rowOf t sb half < L.rows tile) → ∃ c,
        (T.machine L.tiles).Reachable L.interScales₀ c ∧ c.epoch () = 2 * tile + 1 ∧
          c.Head () t (.quantize pp sb half) := fun _ _ _ _ _ h =>
    exists_quantize_head L hrows h.1 h.2.1 h.2.2.1 h.2.2.2.1 h.2.2.2.2
  have hscaleUse : ∀ tile t p dk sb half, (tile < L.tiles ∧ p < B.passesPerWg ∧ dk < B.dKblk ∧
      sb < 2 ∧ half < 2 ∧ rowOf t sb half < L.rows tile) → ∃ c,
        (T.machine L.tiles).Reachable L.interScales₀ c ∧ c.epoch () = 2 * tile + 2 ∧
          c.Head () t (.scaleUse p dk sb half) := fun _ _ _ _ _ _ h =>
    exists_scaleUse_head L hrows h.1 h.2.1 h.2.2.1 h.2.2.2.1 h.2.2.2.2.1 h.2.2.2.2.2
  have : Nonempty ScaleConfig := ⟨(T.machine L.tiles).init L.interScales₀⟩
  choose! quantizing hquantizing using hquantize
  choose! multiplying hmultiplying using hscaleUse
  refine ⟨{ F with
    scales := T
    inv := fun tile t pp sb half =>
      (T.effect (quantizing tile t pp sb half) () t (.quantize pp sb half)).2.inv sb half
    as := fun tile t p dk sb half =>
      (T.effect (multiplying tile t p dk sb half) () t (.scaleUse p dk sb half)).2.as sb half
    before := fun _ _ => L.zero
    clears := fun _ => serial (List.finRange 256) (clearProg B)
    stores := fun tile => serial (List.finRange 256) (quantProg B (L.rows tile))
    fetches_a := ?_
    fetches_w := ?_
    scales_rows := hrows
    scales_acc := hacc
    inv_read := ?_
    as_read := ?_
    clears_interleaves := fun _ => interleaves_serial (List.nodup_finRange _) List.mem_finRange
    stores_interleaves := fun _ => interleaves_serial (List.nodup_finRange _) List.mem_finRange }⟩
  · intro tile htile v lin hlin sb _ j _ r _ k _
    have hn : (0 < 2 * tile + 1 ∧ 2 * tile + 1 ≤ 2 * L.tiles) ∧
        lin < (B.rings L.tiled).steps (2 * tile + 1) :=
      ⟨⟨by omega, by omega⟩, hlin.trans_eq (if_pos (isUp_up tile)).symm⟩
    exact ⟨_, hreach _ v _ hn, hepoch _ v _ hn, hread _ v _ hn, rfl⟩
  · intro n hpos hle v lin hlin sb _ j _ r _ k _
    have hn := And.intro (And.intro hpos hle) hlin
    exact ⟨_, hreach _ v _ hn, hepoch _ v _ hn, hread _ v _ hn, rfl⟩
  · intro tile htile t pp hpp sb hsb half hhalf hrow
    obtain ⟨h, he, hhead⟩ := hquantizing tile t pp sb half ⟨htile, hpp, hsb, hhalf, hrow⟩
    exact ⟨_, h, he, hhead, rfl⟩
  · intro tile htile t p hp dk hdk sb hsb half hhalf hrow
    obtain ⟨h, he, hhead⟩ := hmultiplying tile t p dk sb half ⟨htile, hp, hdk, hsb, hhalf, hrow⟩
    exact ⟨_, h, he, hhead, rfl⟩

end Existence

/-! ## The tile of an expert -/

/-- In every run of the tile loop, whatever the order of its steps, whatever shared memory held and
whatever the other rows of the tile are: when `up_phase` of a tile is over, `fp8_inter` holds the
quantized intermediate activation of the rows of the tile and zeros below; and the registers at the
end of a pass of `down_phase` hold, for every row of the tile, what the expert makes of the token of
the row. -/
theorem expert_tile {B : Build} (L : TileLoop B β) (A : TileArith β) (run : TileLoopRun L A)
    (tile : ℕ) (htile : tile < L.tiles) :
    (∀ row < L.rows tile, ∀ col < B.nHalf, run.inter tile (interAddr B L.shm row col) =
      L.activatedByte A B (L.expert tile) (L.fi tile row / B.topK) col) ∧
    (∀ row, L.rows tile ≤ row → row < 128 → ∀ col < B.nHalf,
      run.inter tile (interAddr B L.shm row col) = L.zero) ∧
    ∀ t, ∀ p < B.passesPerWg, ∀ sb < 2, ∀ dr < 32, rowOf t sb (dr / 2 % 2) < L.rows tile →
      run.downReg tile t p sb dr =
        L.expertRow A B (L.expert tile) (L.fi tile (rowOf t sb (dr / 2 % 2)) / B.topK)
          ((t.wg + p * numWg) * nFeat + fragCol t dr) :=
  ⟨fun _ hrow _ hcol => run.inter_eq htile hrow hcol,
    fun _ hrow hlt _ hcol => run.inter_eq_zero hrow hlt hcol,
    fun _ _ hp _ hsb _ hdr hrow => run.downReg_eq htile hp hsb hdr hrow⟩

/-- Bytes that stand for small integers. -/
def intArith : TileArith UInt8 where
  mma a b d := (List.finRange 32).foldl (fun d k => d + (a k * b k).toFloat32) d
  macc acc d s := acc + d * s
  fdividef x y := x / y
  expf := Float32.exp
  e4m3 x := x.toUInt8

/-- Two tiles of the tensor-parallel Qwen3.5 build, the last one of three rows. -/
def qwenTiles : TileLoop qwenTP UInt8 where
  zero := 0
  actFp8 i := (i % 7).toUInt8
  upWFp8 i := (i % 5).toUInt8
  downWFp8 i := (i % 3).toUInt8
  expert tile := tile
  rows tile := if tile = 0 then 128 else 3
  fi tile m := 128 * tile + m
  actScales _ := 1
  upWScales _ := 1
  downWScales _ := 1
  tiled := Build.Shipped.tiled (Or.inr (Or.inl rfl))
  tiles := 2
  shm := 1024
  noise _ _ _ mem a := mem a + 1
  bar _ _ := ⟨5, 0, 3⟩
  mem₀ a := a.toUInt8
  interScales₀ _ := 448
  shm_dvd := by decide
  shm_le := by decide
  rows_le tile := by split <;> decide
  expert_lt tile htile := htile.trans (by decide)

/-- Register 0 of thread 4 in the second tile belongs to its second row, which is the pair 129. -/
theorem expert_tile_qwen : ∃ run : TileLoopRun qwenTiles intArith,
    run.downReg 1 4 0 0 0 = qwenTiles.expertRow intArith qwenTP 1 (129 / 8) 0 := by
  obtain ⟨run⟩ := qwenTiles.exists_run intArith
  exact ⟨run, (expert_tile qwenTiles intArith run 1 (by decide)).2.2 4 0 (by decide) 0 (by decide) 0
    (by decide) (by decide)⟩

end UnimonoMoe
