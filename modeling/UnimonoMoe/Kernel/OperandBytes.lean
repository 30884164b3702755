import UnimonoMoe.Kernel.OperandProgress
import UnimonoMoe.Kernel.SharedLayout

/-!
# The bytes that the products read

The tile loop once more, now with the bytes of shared memory beside the record of where they came
from.  A chunk of a staging is sixteen bytes at the address of `stage_A`; a byte of a bulk load goes
where the tensor map, with its 128-byte swizzle, puts it; and a `wgmma` fetches its operands through
the descriptors of `make_wgmma_desc`.  What the rest of the block does to the rest of shared memory
is left open (`noise`), and shared memory may hold anything at the start.

`operand_bytes` says what every product of every run multiplies: rows of the quantized activations,
zeros for the rows past the end of the tile, and rows of the weights of the tile's expert.
-/

namespace UnimonoMoe

open Epochs Loops Swizzles Interleaving

variable {β : Type*}

/-! ## Descriptors -/

/-- `make_wgmma_desc` -/
def makeWgmmaDesc (addr lbo sbo mode : ℕ) : ℕ :=
  ((addr >>> 4) &&& 0x3FFF) ||| (((lbo >>> 4) &&& 0x3FFF) <<< 16) |||
    (((sbo >>> 4) &&& 0x3FFF) <<< 32) ||| ((mode &&& 0x3) <<< 62)

/-- The start address of a descriptor. -/
def descStart (d : ℕ) : ℕ := d % 2 ^ 14 * 16

/-- The stride byte offset of a descriptor. -/
def descStride (d : ℕ) : ℕ := d / 2 ^ 32 % 2 ^ 14 * 16

/-- The swizzle mode of a descriptor. -/
def descMode (d : ℕ) : ℕ := d / 2 ^ 62

/-- Byte `k` of row `r` of an operand in swizzle mode 1: groups of 8 rows of 128 bytes lie a stride
apart, and the address is swizzled. -/
def operandByte (mem : ℕ → β) (d r k : ℕ) : β :=
  mem (swizzle128 (descStart d + (r / 8 * descStride d + r % 8 * 128 + k)))

/-- A descriptor holds what it was made of. -/
theorem makeWgmmaDesc_fields {addr lbo sbo mode : ℕ} (haddr : 16 ∣ addr) (hlt : addr < 2 ^ 18)
    (hsbo : 16 ∣ sbo) (hslt : sbo < 2 ^ 18) (hmode : mode < 4) :
    descStart (makeWgmmaDesc addr lbo sbo mode) = addr ∧
      descStride (makeWgmmaDesc addr lbo sbo mode) = sbo ∧
      descMode (makeWgmmaDesc addr lbo sbo mode) = mode := by
  have hfield : ∀ x : ℕ, (x >>> 4) &&& 0x3FFF = x / 16 % 2 ^ 14 := fun x => by
    rw [Nat.shiftRight_eq_div_pow]
    exact Nat.and_two_pow_sub_one_eq_mod _ 14
  have hmask : mode &&& 0x3 = mode := by
    rw [show (0x3 : ℕ) = 2 ^ 2 - 1 from rfl, Nat.and_two_pow_sub_one_eq_mod]
    exact Nat.mod_eq_of_lt hmode
  unfold makeWgmmaDesc
  rw [hfield, hfield, hfield, hmask]
  have hstart := Nat.mod_lt (addr / 16) (Nat.two_pow_pos 14)
  have hlead := Nat.mod_lt (lbo / 16) (Nat.two_pow_pos 14)
  have hstride := Nat.mod_lt (sbo / 16) (Nat.two_pow_pos 14)
  -- the fields are packed from the lowest up
  have hlow : addr / 16 % 2 ^ 14 ||| (lbo / 16 % 2 ^ 14) <<< 16 =
      lbo / 16 % 2 ^ 14 * 2 ^ 16 + addr / 16 % 2 ^ 14 := packed_eq (by omega)
  have hmiddle : (lbo / 16 % 2 ^ 14 * 2 ^ 16 + addr / 16 % 2 ^ 14) ||| (sbo / 16 % 2 ^ 14) <<< 32 =
      sbo / 16 % 2 ^ 14 * 2 ^ 32 + (lbo / 16 % 2 ^ 14 * 2 ^ 16 + addr / 16 % 2 ^ 14) :=
    packed_eq (by omega)
  rw [hlow, hmiddle, packed_eq (by omega)]
  unfold descStart descStride descMode
  omega

/-! ## The tiles of a block -/

/-- What the tile loop of a block works on: the operands in global memory, and for each of its tiles
the expert, the number of rows and the flattened pair `row_fi[m]` of each row. -/
structure TileData (β : Type*) where
  zero : β
  actFp8 : ℕ → β
  upWFp8 : ℕ → β
  downWFp8 : ℕ → β
  expert : ℕ → ℕ
  rows : ℕ → ℕ
  fi : ℕ → ℕ → ℕ

/-- An element of a two-dimensional tensor map; outside its extents it reads as zero. -/
def tensorMap (zero : β) (ptr : ℕ → β) (dim0 dim1 coord0 coord1 : ℕ) : β :=
  if coord0 < dim0 ∧ coord1 < dim1 then ptr (coord1 * dim0 + coord0) else zero

namespace TileData

variable (T : TileData β) (B : Build)

/-- The activation byte in row `m` and column `col` of the whole row of a tile. -/
def act (tile m col : ℕ) : β :=
  if m < T.rows tile then T.actFp8 (T.fi tile m / B.topK * B.kDim + col) else T.zero

/-- Byte `byte` of the weight tile for pass `gfp` and block `kblk` in epoch `n`: `up_tma` and
`down_tma` at the coordinates that `arm_tile` and `arm` pass. -/
def weightByte (n gfp kblk byte : ℕ) : β :=
  let e := T.expert (RingBuild.tileOf n)
  if RingBuild.isUp n then
    tensorMap T.zero T.upWFp8 B.kDim (B.eLocal * B.nUp) (kblk * 128 + byte % 128)
      (e * B.nUp + gfp * nFeat + byte / 128)
  else
    tensorMap T.zero T.downWFp8 B.nHalf (B.eLocal * B.hDim) (kblk * 128 + byte % 128)
      (e * B.hDim + gfp * nFeat + byte / 128)

end TileData

/-! ## The machine -/

section Machine

variable {B : Build} (hB : B.Tiled) (T : TileData β) (shm : ℕ)

/-- The chunks `its` of an activation block are stored by their thread. -/
def storeChunks (B : Build) (shm slot : ℕ) (t : Tid) (its : List ℕ) (val : ℕ × ℕ → β)
    (mem : ℕ → β) : ℕ → β :=
  storeAll (fun p => chunkAddr B shm slot t p.1 + p.2) val mem (its ×ˢ List.range 16)

/-- What an operation stores in the rings.  A chunk of a staging is copied from the row of its
token, or stored as zeros past the end of the tile; a byte of a bulk load goes to its place in the
box, swizzled. -/
def ringStore (c : RingConfig) (x : Worker) (i : RingOp) (mem : ℕ → β) : ℕ → β :=
  let n := c.epoch .block
  match x, i with
  | .thread t, .stageA g =>
    storeChunks B shm (g % aStages) t
      ((List.range B.aIters).filter fun it => T.rows (RingBuild.tileOf n) ≤ chunkRow t it)
      (fun _ => T.zero) mem
  | .copy _, .land (.a n t g it) =>
    storeChunks B shm (g % aStages) t [it]
      (fun p => T.actFp8 (g % B.nKblk * 128 + T.fi (RingBuild.tileOf n) (chunkRow t p.1) / B.topK *
        B.kDim + (p.1 * 256 + t) % 8 * 16 + p.2)) mem
  | .copy _, .land (.b n w lin byte) =>
    let tile := (B.rings hB).weightTile n w lin
    Function.update mem (swizzle128 (bSlot B shm n w (lin % (B.rings hB).depth n) + byte))
      (T.weightByte B n tile.gfp tile.kblk byte)
  | _, _ => mem

/-- What an operation stores in shared memory.  Outside the rings of the phase anything may
happen. -/
def shmStore (noise : RingConfig → Worker → RingOp → (ℕ → β) → ℕ → β) (c : RingConfig) (_ : Party)
    (x : Worker) (i : RingOp) (mem : ℕ → β) (a : ℕ) : β :=
  if InRings B shm (c.epoch .block) a then ringStore hB T shm c x i mem a else noise c x i mem a

/-- The tile loop of a block over `tiles` tiles, with the bytes of shared memory. -/
def shmMachine (tiles : ℕ) (noise : RingConfig → Worker → RingOp → (ℕ → β) → ℕ → β) :
    Machine Party Worker RingOp (RingMem × (ℕ → β)) (ℕ → ℕ) :=
  (ringMachine (B.rings hB) T.rows tiles).withStore (shmStore hB T shm noise)

/-- Rings of which nothing is recorded yet: tile `tiles` and epoch 0 do not exist. -/
def unrecorded (tiles : ℕ) (bar : Fin 2 → ℕ → PhaseBarrier.State) : RingMem :=
  ⟨fun _ _ _ => ⟨tiles, 0⟩, fun _ _ _ => ⟨0, 0, 0⟩, bar⟩

end Machine

/-! ## The record and the bytes -/

/-- The thread that stages byte `p` of an activation block. -/
def stager (p : ℕ) : Tid := ⟨p / 16 % 256, Nat.mod_lt _ (by decide)⟩

/-- The chunk of its thread to which byte `p` of an activation block belongs. -/
def stagedIn (p : ℕ) : ℕ := p / 16 / 256

/-- Byte `p` of an activation block belongs to this row. -/
lemma chunkRow_stager (p : ℕ) : chunkRow (stager p) (stagedIn p) = p / 128 := by
  simp only [chunkRow, stager, stagedIn]
  omega

section Realizes

variable {B : Build} (hB : B.Tiled) (T : TileData β) (shm tiles : ℕ)

/-- The bytes that the record says are of this epoch are the right ones, and the record says
nothing about the future. -/
structure Realizes (n : ℕ) (ring : RingMem) (mem : ℕ → β) : Prop where
  act (hn : RingBuild.isUp n = true) {slot p : ℕ} (hslot : slot < 4) (hp : p < 16384)
    (htile : (ring.aRing slot (stager p) (stagedIn p)).tile = RingBuild.tileOf n) :
    mem (swizzle128 (aSlot B shm slot + p)) = T.act B (RingBuild.tileOf n) (p / 128)
      ((ring.aRing slot (stager p) (stagedIn p)).kblk * 128 + p % 128)
  weight (hn : 0 < n) {w : Fin 2} {slot byte : ℕ}
    (hslot : slot < if RingBuild.isUp n then 4 else 2) (hbyte : byte < 8192)
    (hepoch : (ring.bRing w slot byte).epoch = n) :
    mem (swizzle128 (bSlot B shm n w slot + byte)) =
      T.weightByte B n (ring.bRing w slot byte).gfp (ring.bRing w slot byte).kblk byte
  tile_le (slot : ℕ) (t : Tid) (it : ℕ) : (ring.aRing slot t it).tile = tiles ∨
    0 < n ∧ (ring.aRing slot t it).tile ≤ RingBuild.tileOf n
  epoch_le (w : Fin 2) (slot byte : ℕ) : (ring.bRing w slot byte).epoch ≤ n

variable {T shm tiles} {n : ℕ} {ring ring' : RingMem} {mem mem' : ℕ → β}

/-- What is done to the rest of shared memory does not matter. -/
lemma Realizes.frame (hshm : 1024 ∣ shm) (h : Realizes (B := B) T shm tiles n ring mem)
    (ha : ring'.aRing = ring.aRing) (hb : ring'.bRing = ring.bRing)
    (hmem : ∀ a, InRings B shm n a → mem' a = mem a) :
    Realizes (B := B) T shm tiles n ring' mem' where
  act hn slot p hslot hp htile := by
    rw [ha] at htile ⊢
    rw [hmem _ ((inRings_swizzle128 hshm).mpr (inRings_aSlot hn hslot hp))]
    exact h.act hn hslot hp htile
  weight hn w slot byte hslot hbyte hepoch := by
    rw [hb] at hepoch ⊢
    rw [hmem _ ((inRings_swizzle128 hshm).mpr (inRings_bSlot w.isLt hslot hbyte))]
    exact h.weight hn hslot hbyte hepoch
  tile_le := by
    rw [ha]
    exact h.tile_le
  epoch_le := by
    rw [hb]
    exact h.epoch_le

/-- A byte of an activation block is written with the chunk it belongs to. -/
lemma storeChunks_aSlot (hshm : 1024 ∣ shm) {slot slot' p : ℕ} {t : Tid} {its : List ℕ}
    (hits : its.Nodup) (hlt : ∀ it ∈ its, it < 4) (val : ℕ × ℕ → β) (hp : p < 16384) :
    storeChunks B shm slot t its val mem (swizzle128 (aSlot B shm slot' + p)) =
      if slot' = slot ∧ stager p = t ∧ stagedIn p ∈ its then val (stagedIn p, p % 16)
      else mem (swizzle128 (aSlot B shm slot' + p)) := by
  have haddr : ∀ q ∈ its ×ˢ List.range 16, chunkAddr B shm slot t q.1 + q.2 =
      swizzle128 (aSlot B shm slot + ((q.1 * 256 + t) * 16 + q.2)) := fun q hq =>
    chunkAddr_eq hshm t q.1 (List.mem_range.mp (List.mem_product.mp hq).2)
  have ht := t.isLt
  unfold storeChunks
  split_ifs with hit
  · obtain ⟨rfl, rfl, hin⟩ := hit
    have hmem : (stagedIn p, p % 16) ∈ its ×ˢ List.range 16 :=
      List.mem_product.mpr ⟨hin, List.mem_range.mpr (Nat.mod_lt _ (by decide))⟩
    have hplace : (stagedIn p * 256 + (stager p : ℕ)) * 16 + p % 16 = p := by
      simp only [stager, stagedIn]
      omega
    have hinj : ∀ q ∈ its ×ˢ List.range 16, ∀ q' ∈ its ×ˢ List.range 16,
        chunkAddr B shm slot' (stager p) q.1 + q.2 = chunkAddr B shm slot' (stager p) q'.1 + q'.2 →
          q = q' := by
      intro q hq q' hq' heq
      rw [haddr q hq, haddr q' hq', swizzle128_inj] at heq
      have h2 := List.mem_range.mp (List.mem_product.mp hq).2
      have h2' := List.mem_range.mp (List.mem_product.mp hq').2
      exact Prod.ext (by omega) (by omega)
    have hplaced := haddr _ hmem
    rw [hplace] at hplaced
    rw [← hplaced]
    exact storeAll_of_mem (hits.product List.nodup_range) hinj hmem
  · refine storeAll_of_forall_ne fun q hq heq => hit ?_
    rw [haddr q hq, swizzle128_inj] at heq
    obtain ⟨hq1, hq2⟩ := List.mem_product.mp hq
    have h1 := hlt _ hq1
    rw [List.mem_range] at hq2
    obtain ⟨rfl, hplace⟩ := aSlot_inj (by omega) hp heq
    have hstaged : stagedIn p = q.1 := by
      unfold stagedIn
      omega
    refine ⟨rfl, Fin.ext ?_, hstaged ▸ hq1⟩
    simp only [stager]
    omega

/-- The weight tiles do not change when activations are stored. -/
lemma storeChunks_bSlot (hshm : 1024 ∣ shm) (hn : RingBuild.isUp n = true) {slot slot' p w : ℕ}
    {t : Tid} {its : List ℕ} (hslot : slot < 4) (hlt : ∀ it ∈ its, it < 4) (val : ℕ × ℕ → β) :
    storeChunks B shm slot t its val mem (swizzle128 (bSlot B shm n w slot' + p)) =
      mem (swizzle128 (bSlot B shm n w slot' + p)) := by
  refine storeAll_of_forall_ne fun q hq heq => ?_
  obtain ⟨hq1, hq2⟩ := List.mem_product.mp hq
  have h1 := hlt _ hq1
  rw [List.mem_range] at hq2
  have ht := t.isLt
  rw [chunkAddr_eq hshm t q.1 hq2, swizzle128_inj] at heq
  exact aSlot_ne_bSlot hn hslot (by omega) heq

/-- A staging stores zeros for the rows past the end of the tile. -/
lemma Realizes.stageA (hshm : 1024 ∣ shm) (h : Realizes (B := B) T shm tiles n ring mem)
    (hn : RingBuild.isUp n = true) (t : Tid) (g : ℕ)
    (ha : ring'.aRing = fun slot u it =>
      if slot = g % 4 ∧ u = t ∧ it < 4 ∧ T.rows (RingBuild.tileOf n) ≤ chunkRow t it then
        ⟨RingBuild.tileOf n, g % B.nKblk⟩ else ring.aRing slot u it)
    (hb : ring'.bRing = ring.bRing) :
    Realizes (B := B) T shm tiles n ring' (storeChunks B shm (g % 4) t ((List.range 4).filter
      fun it => T.rows (RingBuild.tileOf n) ≤ chunkRow t it) (fun _ => T.zero) mem) where
  act _ slot p hslot hp htile := by
    have hpos : 0 < n := Nat.pos_of_ne_zero fun hzero => by subst hzero; cases hn
    rw [ha] at htile ⊢
    rw [storeChunks_aSlot hshm (List.nodup_range.filter _)
      (fun it hit => List.mem_range.mp (List.mem_filter.mp hit).1) _ hp]
    simp only [List.mem_filter, List.mem_range, decide_eq_true_eq]
    by_cases hit : slot = g % 4 ∧ stager p = t ∧ stagedIn p < 4 ∧
        T.rows (RingBuild.tileOf n) ≤ chunkRow t (stagedIn p)
    · obtain ⟨rfl, rfl, hlt, hrow⟩ := hit
      rw [if_pos ⟨rfl, rfl, hlt, hrow⟩, if_pos ⟨rfl, rfl, hlt, hrow⟩]
      rw [chunkRow_stager] at hrow
      exact (if_neg (Nat.not_lt.mpr hrow)).symm
    · simp only [if_neg hit] at htile ⊢
      exact h.act hn hslot hp htile
  weight hpos w slot byte hslot hbyte hepoch := by
    rw [hb] at hepoch ⊢
    rw [storeChunks_bSlot hshm hn (Nat.mod_lt _ (by decide))
      fun it hit => List.mem_range.mp (List.mem_filter.mp hit).1]
    exact h.weight hpos hslot hbyte hepoch
  tile_le slot u it := by
    have hpos : 0 < n := Nat.pos_of_ne_zero fun hzero => by subst hzero; cases hn
    rw [ha]
    dsimp only
    split
    · exact Or.inr ⟨hpos, le_rfl⟩
    · exact h.tile_le slot u it
  epoch_le := by
    rw [hb]
    exact h.epoch_le

/-- A chunk of a staging comes in. -/
lemma Realizes.landA (hshm : 1024 ∣ shm) (h : Realizes (B := B) T shm tiles n ring mem)
    (hn : RingBuild.isUp n = true) {t : Tid} {g it : ℕ} (hit : it < 4)
    (hrow : chunkRow t it < T.rows (RingBuild.tileOf n))
    (ha : ring'.aRing = fun slot u j =>
      if slot = g % 4 ∧ u = t ∧ j = it then ⟨RingBuild.tileOf n, g % B.nKblk⟩
      else ring.aRing slot u j)
    (hb : ring'.bRing = ring.bRing) :
    Realizes (B := B) T shm tiles n ring' (storeChunks B shm (g % 4) t [it] (fun p =>
      T.actFp8 (g % B.nKblk * 128 + T.fi (RingBuild.tileOf n) (chunkRow t p.1) / B.topK * B.kDim +
        (p.1 * 256 + t) % 8 * 16 + p.2)) mem) where
  act _ slot p hslot hp htile := by
    rw [ha] at htile ⊢
    rw [storeChunks_aSlot hshm (List.nodup_singleton _)
      (fun j hj => List.mem_singleton.mp hj ▸ hit) _ hp]
    simp only [List.mem_singleton]
    by_cases hhit : slot = g % 4 ∧ stager p = t ∧ stagedIn p = it
    · obtain ⟨rfl, rfl, rfl⟩ := hhit
      rw [if_pos ⟨rfl, rfl, rfl⟩, if_pos ⟨rfl, rfl, rfl⟩]
      rw [chunkRow_stager] at hrow ⊢
      have hcol : (stagedIn p * 256 + (stager p : ℕ)) % 8 * 16 + p % 16 = p % 128 := by
        simp only [stagedIn, stager]
        omega
      unfold TileData.act
      rw [if_pos hrow]
      dsimp only
      congr 1
      omega
    · simp only [if_neg hhit] at htile ⊢
      exact h.act hn hslot hp htile
  weight hpos w slot byte hslot hbyte hepoch := by
    rw [hb] at hepoch ⊢
    rw [storeChunks_bSlot hshm hn (Nat.mod_lt _ (by decide))
      fun j hj => List.mem_singleton.mp hj ▸ hit]
    exact h.weight hpos hslot hbyte hepoch
  tile_le slot u j := by
    have hpos : 0 < n := Nat.pos_of_ne_zero fun hzero => by subst hzero; cases hn
    rw [ha]
    dsimp only
    split
    · exact Or.inr ⟨hpos, le_rfl⟩
    · exact h.tile_le slot u j
  epoch_le := by
    rw [hb]
    exact h.epoch_le

/-- A byte of a weight tile comes in. -/
lemma Realizes.landB (h : Realizes (B := B) T shm tiles n ring mem) {w : Fin 2} {slot byte : ℕ}
    (hslot : slot < if RingBuild.isUp n then 4 else 2) (hbyte : byte < 8192) {tag : BTile}
    (hepoch : tag.epoch = n) (ha : ring'.aRing = ring.aRing)
    (hb : ring'.bRing = fun v s j =>
      if v = w ∧ s = slot ∧ j = byte then tag else ring.bRing v s j) :
    Realizes (B := B) T shm tiles n ring' (Function.update mem
      (swizzle128 (bSlot B shm n w slot + byte)) (T.weightByte B n tag.gfp tag.kblk byte)) where
  act hn slot' p hslot' hp htile := by
    rw [ha] at htile ⊢
    rw [Function.update_of_ne]
    · exact h.act hn hslot' hp htile
    · rw [Ne, swizzle128_inj]
      exact aSlot_ne_bSlot hn hslot' hp
  weight hpos v slot' byte' hslot' hbyte' hepoch' := by
    rw [hb] at hepoch' ⊢
    by_cases hhit : v = w ∧ slot' = slot ∧ byte' = byte
    · obtain ⟨rfl, rfl, rfl⟩ := hhit
      simp only [and_self, if_true, Function.update_self]
    · simp only [if_neg hhit] at hepoch' ⊢
      rw [Function.update_of_ne]
      · exact h.weight hpos hslot' hbyte' hepoch'
      · rw [Ne, swizzle128_inj]
        intro heq
        obtain ⟨hw, hs, hp⟩ := bSlot_inj hslot' hslot hbyte' hbyte heq
        exact hhit ⟨Fin.ext hw, hs, hp⟩
  tile_le := by
    rw [ha]
    exact h.tile_le
  epoch_le v s j := by
    rw [hb]
    dsimp only
    split
    · exact hepoch.le
    · exact h.epoch_le v s j

/-- In a new phase nothing is of this epoch yet. -/
lemma Realizes.next (h : Realizes (B := B) T shm tiles n ring mem) (hn : n < 2 * tiles) :
    Realizes (B := B) T shm tiles (n + 1) ring mem where
  act hup slot p hslot hp htile := by
    exfalso
    have hodd : (n + 1) % 2 = 1 := of_decide_eq_true hup
    unfold RingBuild.tileOf at htile
    rcases h.tile_le slot (stager p) (stagedIn p) with heq | ⟨hpos, hle⟩
    · omega
    · unfold RingBuild.tileOf at hle
      omega
  weight _ w slot byte _ _ hepoch := by
    have := h.epoch_le w slot byte
    omega
  tile_le slot t it := by
    rcases h.tile_le slot t it with heq | ⟨hpos, hle⟩
    · exact Or.inl heq
    · refine Or.inr ⟨Nat.succ_pos n, hle.trans ?_⟩
      unfold RingBuild.tileOf
      omega
  epoch_le w slot byte := (h.epoch_le w slot byte).trans (Nat.le_succ n)

end Realizes

/-! ## Runs -/

section Runs

variable {B : Build} {hB : B.Tiled} {T : TileData β} {shm tiles : ℕ}
  {noise : RingConfig → Worker → RingOp → (ℕ → β) → ℕ → β} {bar : Fin 2 → ℕ → PhaseBarrier.State}
  {mem₀ : ℕ → β} {c : Config Party Worker RingOp (RingMem × (ℕ → β)) (ℕ → ℕ)}

/-- Operations other than a staging and a load leave the record of the rings alone. -/
lemma ringEffect_rings {R : RingBuild} {rows : ℕ → ℕ} {c : RingConfig} {p : Party} {x : Worker}
    {i : RingOp} (hstage : ∀ g, i ≠ .stageA g) (hland : ∀ l, i ≠ .land l) :
    (ringEffect R rows c p x i).1.aRing = c.mem.aRing ∧
      (ringEffect R rows c p x i).1.bRing = c.mem.bRing := by
  cases i with
  | stageA g => exact absurd rfl (hstage g)
  | land l => exact absurd rfl (hland l)
  | _ => cases x <;> exact ⟨rfl, rfl⟩

/-- They store nothing in the rings. -/
lemma ringStore_of_ne {c : RingConfig} {x : Worker} {i : RingOp} {mem : ℕ → β}
    (hstage : ∀ g, i ≠ .stageA g) (hland : ∀ l, i ≠ .land l) :
    ringStore hB T shm c x i mem = mem := by
  cases i with
  | stageA g => exact absurd rfl (hstage g)
  | land l => exact absurd rfl (hland l)
  | _ => cases x <;> rfl

/-- A load that is about to come in was issued in this phase. -/
lemma epoch_of_head {R : RingBuild} {rows : ℕ → ℕ} {m₀ : RingMem} {c : RingConfig} {l : Load}
    (h : (ringMachine R rows tiles).Reachable m₀ c) (hissued : Issued R rows c l)
    (hmissing : ¬ Landed c l) : l.epoch = c.epoch .block := by
  have hle : l.epoch ≤ c.epoch .block := by
    cases l with
    | a n t g it => exact hissued.1.epoch_le
    | b n w lin byte => exact hissued.1.epoch_le
  exact hle.eq_of_not_lt fun hlt => hmissing ((ringInv h).past hissued hlt)

/-- An operation keeps record and bytes in agreement. -/
lemma Realizes.exec {m₀ : RingMem} {c : RingConfig} {mem : ℕ → β} {r : Party} {x : Worker}
    {i : RingOp} (hshm : 1024 ∣ shm)
    (h : (ringMachine (B.rings hB) T.rows tiles).Reachable m₀ c)
    (ih : Realizes (B := B) T shm tiles (c.epoch .block) c.mem mem) (hhead : c.Head r x i)
    (henabled : ringEnabled (B.rings hB) T.rows c r x i) :
    Realizes (B := B) T shm tiles (c.epoch .block) (ringEffect (B.rings hB) T.rows c r x i).1
      (ringStore hB T shm c x i mem) := by
  cases r with
  | block =>
    obtain ⟨t, rfl⟩ := block_head h hhead
    by_cases hstage : ∃ g, i = .stageA g
    · obtain ⟨g, rfl⟩ := hstage
      obtain ⟨-, hup, -⟩ := Head.runs h hhead
      unfold ringStore
      rw [Build.aIters_eq]
      refine ih.stageA hshm hup t g ?_ rfl
      simp only [ringEffect, Build.rings_aStages, Build.rings_aIters]
      rfl
    · have hland : ∀ l, i ≠ .land l := by
        rintro l rfl
        exact (Head.runs h hhead).2
      obtain ⟨ha, hb⟩ : (ringEffect (B.rings hB) T.rows c .block (.thread t) i).1.aRing = _ ∧
          (ringEffect (B.rings hB) T.rows c .block (.thread t) i).1.bRing = _ :=
        ringEffect_rings (not_exists.mp hstage) hland
      rw [ringStore_of_ne (not_exists.mp hstage) hland]
      exact ih.frame hshm ha hb fun _ _ => rfl
  | engine =>
    obtain ⟨l, rfl, rfl, hfirst⟩ := engine_head h hhead
    have hmissing : ¬ Landed c l := by
      rw [landed_iff (B.rings hB) T.rows tiles, ← hfirst]
      exact hhead.not_ran
    have hepoch : l.epoch = c.epoch .block := epoch_of_head h henabled hmissing
    cases l with
    | a n t g it =>
      obtain ⟨hran, hit, hrow⟩ := henabled
      obtain ⟨-, hup, -⟩ := hran.runs
      obtain rfl : n = c.epoch .block := hepoch
      rw [Build.rings_aIters] at hit
      exact ih.landA hshm hup hit hrow rfl rfl
    | b n w lin byte =>
      obtain ⟨hran, hbyte⟩ := henabled
      obtain rfl : n = c.epoch .block := hepoch
      refine ih.landB ?_ hbyte rfl rfl rfl
      rw [← Build.rings_depth hB]
      exact Nat.mod_lt _ (depth_pos _)

/-- The record and the bytes agree in every reachable configuration. -/
theorem realizes (hshm : 1024 ∣ shm)
    (h : (shmMachine hB T shm tiles noise).Reachable (unrecorded tiles bar, mem₀) c) :
    Realizes (B := B) T shm tiles (c.epoch .block) c.mem.1 c.mem.2 := by
  induction h with
  | init =>
    refine ⟨fun hn => ?_, fun hn => absurd hn (lt_irrefl 0), fun _ _ _ => Or.inl rfl,
      fun _ _ _ => le_rfl⟩
    cases hn
  | @step c c' h hstep ih =>
    obtain ⟨-, ⟨r, x, i, hhead, henabled, ⟨l, hfire⟩, hstore⟩ | ⟨r, hlaunch, hsame⟩⟩ :=
      Machine.step_withStore hstep
    · have hring : c'.mem.1 = (ringEffect (B.rings hB) T.rows c.base r x i).1 :=
        congrArg Config.mem hfire
      have hepoch : c'.epoch = c.epoch := congrArg (fun c => c.epoch) hfire
      rw [hepoch, hring, hstore]
      exact (ih.exec hshm h.base hhead henabled).frame hshm rfl rfl fun a ha => if_pos ha
    · have hring : c'.mem.1 = c.mem.1 := congrArg Config.mem hlaunch
      have hepoch : c'.epoch = ((ringMachine (B.rings hB) T.rows tiles).launch c.base r).epoch :=
        congrArg (fun c => c.epoch) hlaunch
      rw [hring, hsame]
      cases r with
      | block =>
        have hnext : c'.epoch .block = c.epoch .block + 1 := by
          rw [hepoch, launch_epoch_self]
          rfl
        have hle : c'.epoch .block ≤ 2 * tiles := (h.step hstep).base.epoch_le .block
        rw [hnext]
        exact ih.next (by omega)
      | engine =>
        have hstays : c'.epoch .block = c.epoch .block := by
          rw [hepoch, launch_epoch_of_ne _ _ (by decide)]
          rfl
        rwa [hstays]

end Runs

/-! ## Operands -/

section Operands

/-- `da` of product `j` of a sub-tile in a step of `up_phase`. -/
def upDesc (B : Build) (shm lin sb j : ℕ) : ℕ :=
  makeWgmmaDesc (aSlot B shm (lin % aStages) + sb * (64 * 128) + j * 32) 16 1024 1

/-- `db` of product `j` in a step of either phase. -/
def weightDesc {B : Build} (hB : B.Tiled) (shm n w lin j : ℕ) : ℕ :=
  makeWgmmaDesc (bSlot B shm n w (lin % (B.rings hB).depth n) + j * 32) 16 1024 1

variable {B : Build} {hB : B.Tiled} {T : TileData β} {shm tiles n lin sb j r k : ℕ} {w : Fin 2}
  {ring : RingMem} {mem : ℕ → β} {c : RingConfig}

/-- An operand is fetched from the place that its descriptor names. -/
lemma operandByte_desc {base off : ℕ} (hbase : 1024 ∣ base) (hoff : 1024 ∣ off)
    (hlt : base + off + j * 32 < 2 ^ 18) :
    operandByte mem (makeWgmmaDesc (base + off + j * 32) 16 1024 1) r k =
      mem (swizzle128 (base + (off + (r * 128 + (j * 32 + k))))) := by
  have haligned : 16 ∣ base + off + j * 32 := by omega
  obtain ⟨hstart, hstride, -⟩ :
      descStart (makeWgmmaDesc (base + off + j * 32) 16 1024 1) = base + off + j * 32 ∧
        descStride (makeWgmmaDesc (base + off + j * 32) 16 1024 1) = 1024 ∧ _ :=
    makeWgmmaDesc_fields haligned hlt (by decide) (by decide) (by decide)
  unfold operandByte
  rw [hstart, hstride]
  congr 2
  omega

/-- The gate passes and the up passes of a warpgroup, and their blocks. -/
lemma tileGfpKs_lt {R : RingBuild} (heven : R.gatePasses = R.gatePasses / numWg * numWg)
    (hlin : lin < R.wgTiles) :
    (R.tileGfpKs w lin).1 < 2 * R.gatePasses ∧ (R.tileGfpKs w lin).2 < R.nKblk := by
  have hblocks : 0 < R.nKblk := (Nat.zero_lt_of_lt R.three_le_aStages).trans_le R.aStages_le
  have hpair : lin / (2 * R.nKblk) < R.gatePasses / numWg := by
    refine Nat.div_lt_of_lt_mul (hlin.trans_eq ?_)
    unfold RingBuild.wgTiles
    ring
  have hw := w.isLt
  unfold numWg at heven hpair
  refine ⟨?_, Nat.mod_lt _ hblocks⟩
  unfold RingBuild.tileGfpKs numWg
  dsimp only
  split <;> omega

/-- The passes of the up projection stay within the weights of the expert. -/
lemma upPass_le (hlin : lin < (B.rings hB).wgTiles) :
    ((B.rings hB).tileGfpKs w lin).1 * 64 + 64 ≤ B.nUp ∧
      ((B.rings hB).tileGfpKs w lin).2 * 128 + 128 ≤ B.kDim := by
  obtain ⟨hgfp, hks⟩ := tileGfpKs_lt (w := w) (R := B.rings hB) hB.gatePasses_eq hlin
  have hhalf : B.gatePasses * 64 ≤ B.nHalf := Nat.div_mul_le_self B.nHalf 64
  have hwidth : B.nKblk * 128 ≤ B.kDim := Nat.div_mul_le_self B.kDim 128
  have hgates : (B.rings hB).gatePasses = B.gatePasses := rfl
  have hblocks : (B.rings hB).nKblk = B.nKblk := rfl
  unfold Build.nUp
  omega

/-- Who reads works on one of the tiles. -/
lemma tileOf_lt {R : RingBuild} {rows : ℕ → ℕ} {m₀ : RingMem} {c : RingConfig}
    (h : (ringMachine R rows tiles).Reachable m₀ c) (hread : Reading R c (c.epoch .block) w lin) :
    RingBuild.tileOf (c.epoch .block) < tiles := by
  have hle : c.epoch .block ≤ 2 * tiles := h.epoch_le .block
  have hpos := hread.lt.1
  unfold RingBuild.tileOf
  omega

/-- The passes of the down projection stay within the weights of the expert. -/
lemma downPass_le (hlin : lin < (B.rings hB).wgTotal) :
    ((B.rings hB).downGfpDk w lin).1 * 64 + 64 ≤ B.hDim ∧
      ((B.rings hB).downGfpDk w lin).2 * 128 + 128 ≤ B.nHalf := by
  have hpasses : B.passesPerWg * 2 * 64 ≤ B.hDim := by
    unfold Build.passesPerWg nFeat numWg
    omega
  have hwidth : B.dKblk * 128 ≤ B.nHalf := Nat.div_mul_le_self B.nHalf 128
  have hpass : lin / B.dKblk < B.passesPerWg := by
    refine Nat.div_lt_of_lt_mul (hlin.trans_eq ?_)
    simp only [RingBuild.wgTotal, Build.rings]
    ring
  have hblocks : 0 < B.dKblk := Nat.pos_of_ne_zero fun hzero => by
    simp [RingBuild.wgTotal, Build.rings, hzero] at hlin
  have hdk := Nat.mod_lt lin hblocks
  have hw := w.isLt
  simp only [RingBuild.downGfpDk, Build.rings]
  unfold numWg
  omega

/-- The descriptor of an activation operand names the place of its row and column in the slot. -/
lemma operandByte_upDesc (hshm : 1024 ∣ shm) (hfits : shm + B.shmTotal ≤ 2 ^ 18) (hsb : sb < 2)
    (hj : j < 4) : operandByte mem (upDesc B shm lin sb j) r k =
      mem (swizzle128 (aSlot B shm (lin % 4) + ((sb * 64 + r) * 128 + (j * 32 + k)))) := by
  have hin : InRings B shm 1 (aSlot B shm (lin % 4) + (sb * (64 * 128) + j * 32)) :=
    inRings_aSlot rfl (Nat.mod_lt _ (by decide)) (by omega)
  have hlt := hin.lt
  unfold upDesc
  rw [operandByte_desc (dvd_aSlot hshm) (by omega) (by unfold aStages; omega)]
  unfold aStages
  congr 2
  ring

/-- The descriptor of a weight operand names the place of its row and column in the slot. -/
lemma operandByte_weightDesc (hshm : 1024 ∣ shm) (hfits : shm + B.shmTotal ≤ 2 ^ 18)
    (hj : j < 4) : operandByte mem (weightDesc hB shm n w lin j) r k =
      mem (swizzle128 (bSlot B shm n w (lin % (B.rings hB).depth n) +
        (r * 128 + (j * 32 + k)))) := by
  have hin : InRings B shm n (bSlot B shm n w (lin % (B.rings hB).depth n) + j * 32) :=
    inRings_bSlot w.isLt (Build.rings_depth hB n ▸ Nat.mod_lt _ (depth_pos n)) (by omega)
  have hlt := hin.lt
  unfold weightDesc
  have hbase : 1024 ∣ bSlot B shm n w (lin % (B.rings hB).depth n) := dvd_bSlot hshm
  have hdesc : operandByte mem (makeWgmmaDesc (_ + 0 + j * 32) 16 1024 1) r k = _ :=
    operandByte_desc hbase (dvd_zero 1024) (by rw [Nat.add_zero]; omega)
  simpa only [Nat.add_zero, Nat.zero_add] using hdesc

/-- A byte of a weight tile of the up projection is a weight of the expert. -/
lemma TileData.weightByte_up {gfp kblk row col : ℕ} (hn : RingBuild.isUp n = true)
    (he : T.expert (RingBuild.tileOf n) < B.eLocal) (hgfp : gfp * 64 + 64 ≤ B.nUp)
    (hkblk : kblk * 128 + 128 ≤ B.kDim) (hrow : row < 64) (hcol : col < 128) :
    T.weightByte B n gfp kblk (row * 128 + col) =
      T.upWFp8 ((T.expert (RingBuild.tileOf n) * B.nUp + (gfp * 64 + row)) * B.kDim +
        (kblk * 128 + col)) := by
  have hinside := rowMajor_lt he (show gfp * 64 + row < B.nUp by omega)
  unfold TileData.weightByte tensorMap nFeat
  rw [if_pos hn, rowMajor_div hcol, rowMajor_mod hcol, if_pos ⟨by omega, by omega⟩, Nat.add_assoc]

/-- A byte of a weight tile of the down projection is a weight of the expert. -/
lemma TileData.weightByte_down {gfp kblk row col : ℕ} (hn : RingBuild.isUp n = false)
    (he : T.expert (RingBuild.tileOf n) < B.eLocal) (hgfp : gfp * 64 + 64 ≤ B.hDim)
    (hkblk : kblk * 128 + 128 ≤ B.nHalf) (hrow : row < 64) (hcol : col < 128) :
    T.weightByte B n gfp kblk (row * 128 + col) =
      T.downWFp8 ((T.expert (RingBuild.tileOf n) * B.hDim + (gfp * 64 + row)) * B.nHalf +
        (kblk * 128 + col)) := by
  have hinside := rowMajor_lt he (show gfp * 64 + row < B.hDim by omega)
  unfold TileData.weightByte tensorMap nFeat
  rw [if_neg (hn ▸ Bool.false_ne_true), rowMajor_div hcol, rowMajor_mod hcol,
    if_pos ⟨by omega, by omega⟩, Nat.add_assoc]

end Operands

section Windows

variable {B : Build} {hB : B.Tiled} {T : TileData β} {shm tiles : ℕ}
  {noise : RingConfig → Worker → RingOp → (ℕ → β) → ℕ → β} {bar : Fin 2 → ℕ → PhaseBarrier.State}
  {mem₀ : ℕ → β} {c : Config Party Worker RingOp (RingMem × (ℕ → β)) (ℕ → ℕ)}
  {w : Fin 2} {lin sb j r k : ℕ} (hshm : 1024 ∣ shm) (hfits : shm + B.shmTotal ≤ 2 ^ 18)
  (h : (shmMachine hB T shm tiles noise).Reachable (unrecorded tiles bar, mem₀) c)
  (hread : Reading (B.rings hB) c.base (c.epoch .block) w lin)

include hshm hfits h hread

/-- In an up phase the activation operands are columns of the block in the rows of the tile. -/
lemma upOperand_eq (hup : RingBuild.isUp (c.epoch .block) = true) (hsb : sb < 2) (hj : j < 4)
    (hr : r < 64) (hk : k < 32) : operandByte c.mem.2 (upDesc B shm lin sb j) r k =
      T.act B (RingBuild.tileOf (c.epoch .block)) (sb * 64 + r)
        (lin % B.nKblk * 128 + (j * 32 + k)) := by
  have hp : (sb * 64 + r) * 128 + (j * 32 + k) < 16384 := by omega
  have hrecord : c.mem.1.aRing (lin % 4) (stager ((sb * 64 + r) * 128 + (j * 32 + k)))
      (stagedIn ((sb * 64 + r) * 128 + (j * 32 + k))) =
        (B.rings hB).activationBlock (c.epoch .block) lin :=
    hread.aRing h.base hup (by rw [Build.rings_aIters]; unfold stagedIn; omega)
  have hact := (realizes hshm h).act hup (Nat.mod_lt lin (by decide : 0 < 4)) hp
    (congrArg ABlock.tile hrecord)
  rw [operandByte_upDesc hshm hfits hsb hj, hact, hrecord, rowMajor_div (by omega),
    rowMajor_mod (by omega)]
  rfl

/-- The weight operands are bytes of the weight tile of the step. -/
lemma weightOperand_eq (hj : j < 4) (hr : r < 64) (hk : k < 32) :
    operandByte c.mem.2 (weightDesc hB shm (c.epoch .block) w lin j) r k =
      T.weightByte B (c.epoch .block) ((B.rings hB).weightTile (c.epoch .block) w lin).gfp
        ((B.rings hB).weightTile (c.epoch .block) w lin).kblk (r * 128 + (j * 32 + k)) := by
  have hrecord : c.mem.1.bRing w (lin % (B.rings hB).depth (c.epoch .block))
      (r * 128 + (j * 32 + k)) = (B.rings hB).weightTile (c.epoch .block) w lin :=
    hread.bRing h.base (by rw [Build.rings_bShm]; omega)
  have hslot : lin % (B.rings hB).depth (c.epoch .block) <
      if RingBuild.isUp (c.epoch .block) then 4 else 2 :=
    Build.rings_depth hB _ ▸ Nat.mod_lt _ (depth_pos _)
  have hweight := (realizes hshm h).weight hread.lt.1 hslot
    (show r * 128 + (j * 32 + k) < 8192 by omega) (congrArg BTile.epoch hrecord)
  rw [operandByte_weightDesc hshm hfits hj, hweight, hrecord]

/-- In an up phase they are weights of the up projection of the tile's expert. -/
lemma upWeight_eq (hexpert : ∀ tile < tiles, T.expert tile < B.eLocal)
    (hup : RingBuild.isUp (c.epoch .block) = true) (hj : j < 4) (hr : r < 64) (hk : k < 32) :
    operandByte c.mem.2 (weightDesc hB shm (c.epoch .block) w lin j) r k =
      T.upWFp8 ((T.expert (RingBuild.tileOf (c.epoch .block)) * B.nUp +
        (((B.rings hB).tileGfpKs w lin).1 * 64 + r)) * B.kDim +
          (((B.rings hB).tileGfpKs w lin).2 * 128 + (j * 32 + k))) := by
  have hsteps : lin < (B.rings hB).wgTiles := by simpa [RingBuild.steps, hup] using hread.lt.2
  obtain ⟨hgfp, hks⟩ := upPass_le (w := w) hsteps
  rw [weightOperand_eq hshm hfits h hread hj hr hk]
  simp only [RingBuild.weightTile, if_pos hup]
  exact T.weightByte_up hup (hexpert _ (tileOf_lt h.base hread)) hgfp hks hr (by omega)

/-- In a down phase they are weights of its down projection. -/
lemma downWeight_eq (hexpert : ∀ tile < tiles, T.expert tile < B.eLocal)
    (hdown : RingBuild.isUp (c.epoch .block) = false) (hj : j < 4) (hr : r < 64) (hk : k < 32) :
    operandByte c.mem.2 (weightDesc hB shm (c.epoch .block) w lin j) r k =
      T.downWFp8 ((T.expert (RingBuild.tileOf (c.epoch .block)) * B.hDim +
        (((B.rings hB).downGfpDk w lin).1 * 64 + r)) * B.nHalf +
          (((B.rings hB).downGfpDk w lin).2 * 128 + (j * 32 + k))) := by
  have hsteps : lin < (B.rings hB).wgTotal := by simpa [RingBuild.steps, hdown] using hread.lt.2
  obtain ⟨hgfp, hdk⟩ := downPass_le (w := w) hsteps
  rw [weightOperand_eq hshm hfits h hread hj hr hk]
  simp only [RingBuild.weightTile, if_neg (hdown ▸ Bool.false_ne_true)]
  exact T.weightByte_down hdown (hexpert _ (tileOf_lt h.base hread)) hgfp hdk hr (by omega)

end Windows

/-- In every configuration that the tile loop reaches, over shared memory that held anything at the
start and in which anything may happen outside the rings: every product is issued inside the window
of its step, and in that window

* its activation operands in an up phase are the columns of the block in 64 rows of the tile, with
  zeros for the rows past its end,
* its weight operands are the columns of the block in the 64 rows of the pass of the tile's expert,
  of the up projection in an up phase and of the down projection in the others. -/
theorem operand_bytes (B : Build) (hB : B.Tiled) (T : TileData β) (shm tiles : ℕ)
    (noise : RingConfig → Worker → RingOp → (ℕ → β) → ℕ → β)
    (bar : Fin 2 → ℕ → PhaseBarrier.State) (mem₀ : ℕ → β)
    (c : Config Party Worker RingOp (RingMem × (ℕ → β)) (ℕ → ℕ)) (n : ℕ)
    (hexpert : ∀ tile < tiles, T.expert tile < B.eLocal) (hshm : 1024 ∣ shm)
    (hfits : shm + B.shmTotal ≤ 2 ^ 18)
    (h : (shmMachine hB T shm tiles noise).Reachable (unrecorded tiles bar, mem₀) c)
    (hn : c.epoch .block = n) :
    (∀ t lin sb, Head c.base t (.wgmma lin sb) → Reading (B.rings hB) c.base n t.wg lin) ∧
    ∀ w lin, Reading (B.rings hB) c.base n w lin →
      let tile := RingBuild.tileOf n
      ∀ j < 4, ∀ r < 64, ∀ k < 32,
        (RingBuild.isUp n = true →
          let (gfp, ks) := (B.rings hB).tileGfpKs w lin
          (∀ sb < 2, operandByte c.mem.2 (upDesc B shm lin sb j) r k =
            T.act B tile (sb * 64 + r) (ks * 128 + (j * 32 + k))) ∧
          operandByte c.mem.2 (weightDesc hB shm n w lin j) r k =
            T.upWFp8 ((T.expert tile * B.nUp + (gfp * 64 + r)) * B.kDim +
              (ks * 128 + (j * 32 + k)))) ∧
        (RingBuild.isUp n = false →
          let (gfp, dk) := (B.rings hB).downGfpDk w lin
          operandByte c.mem.2 (weightDesc hB shm n w lin j) r k =
            T.downWFp8 ((T.expert tile * B.hDim + (gfp * 64 + r)) * B.nHalf +
              (dk * 128 + (j * 32 + k)))) := by
  subst hn
  refine ⟨fun t lin sb hhead => Head.reading h.base hhead, fun w lin hread j hj r hr k hk =>
    ⟨fun hup => ⟨fun sb hsb => ?_, ?_⟩, fun hdown => ?_⟩⟩
  · have hblock : lin % (2 * B.nKblk) % B.nKblk = lin % B.nKblk := Nat.mod_mul_left_mod _ _ _
    refine (upOperand_eq hshm hfits h hread hup hsb hj hr hk).trans ?_
    exact congrArg (fun x => T.act B _ _ (x * 128 + (j * 32 + k))) hblock.symm
  · exact upWeight_eq hshm hfits h hread hexpert hup hj hr hk
  · exact downWeight_eq hshm hfits h hread hexpert hdown hj hr hk

/-- A product of every step is at some time about to be issued. -/
lemma exists_product_head {B : Build} (hB : B.Tiled) (T : TileData β) (shm tiles : ℕ)
    (noise : RingConfig → Worker → RingOp → (ℕ → β) → ℕ → β) (bar : Fin 2 → ℕ → PhaseBarrier.State)
    (mem₀ : ℕ → β) {n : ℕ} (hpos : 0 < n) (hle : n ≤ 2 * tiles) (w : Fin 2) (lin : ℕ)
    (hlin : lin < (B.rings hB).steps n) :
    ∃ c, (shmMachine hB T shm tiles noise).Reachable (unrecorded tiles bar, mem₀) c ∧
      c.epoch .block = n ∧ Head c.base (wgLeader w) (.wgmma lin 0) := by
  have hruns : (B.rings hB).Runs n (wgLeader w) (.wgmma lin 0) := ⟨hlin, (B.rings hB).mSubs_pos⟩
  obtain ⟨d, h, hepoch, hhead, -⟩ :=
    exists_ring_head (B.rings hB) T.rows tiles (unrecorded tiles bar) hpos hle hruns
  obtain ⟨c, hc, rfl⟩ := h.exists_withStore (shmStore hB T shm noise) mem₀
  exact ⟨c, hc, hepoch, hhead⟩

/-- Three tiles of the tensor-parallel DeepSeek-V3 build, the last one of 5 rows, in shared memory
that begins at its first 1024-byte boundary: the operands of step 5 of the second tile's up
projection, and the weights of step 7 of its down projection, as a product is about to read them. -/
theorem operand_bytes_deepseek :
    let T : TileData ℕ := ⟨0, fun a => a, fun a => 2 * a, fun a => 3 * a, fun tile => 7 * tile,
      fun tile => if tile < 2 then 128 else 5, fun tile m => 128 * tile + m⟩
    let hB : deepseekTP.Tiled := Build.Shipped.tiled (Or.inl rfl)
    let M := shmMachine hB T 1024 3 fun _ _ _ mem a => mem a + 1
    let m₀ := (unrecorded 3 fun _ _ => ⟨5, 0, 3⟩, fun a => a % 256)
    (∃ c, M.Reachable m₀ c ∧ c.epoch .block = 3 ∧ Head c.base (wgLeader 0) (.wgmma 5 0) ∧
      ∀ r < 64, ∀ k < 32,
        operandByte c.mem.2 (upDesc deepseekTP 1024 5 0 2) r k =
            T.act deepseekTP 1 (0 * 64 + r) (5 * 128 + (2 * 32 + k)) ∧
          operandByte c.mem.2 (weightDesc hB 1024 3 0 5 2) r k =
            T.upWFp8 ((T.expert 1 * deepseekTP.nUp + (0 * 64 + r)) * deepseekTP.kDim +
              (5 * 128 + (2 * 32 + k)))) ∧
    ∃ c, M.Reachable m₀ c ∧ c.epoch .block = 4 ∧ Head c.base (wgLeader 1) (.wgmma 7 0) ∧
      ∀ r < 64, ∀ k < 32, operandByte c.mem.2 (weightDesc hB 1024 4 1 7 2) r k =
        T.downWFp8 ((T.expert 1 * deepseekTP.hDim + (7 * 64 + r)) * deepseekTP.nHalf +
          (1 * 128 + (2 * 32 + k))) := by
  intro T hB M m₀
  have hbytes := fun c n => operand_bytes deepseekTP hB T 1024 3 (fun _ _ _ mem a => mem a + 1)
    (fun _ _ => ⟨5, 0, 3⟩) (fun a => a % 256) c n (by decide) (by decide) (by decide)
  constructor
  · obtain ⟨c, h, hepoch, hhead⟩ := exists_product_head hB T 1024 3 (fun _ _ _ mem a => mem a + 1)
      (fun _ _ => ⟨5, 0, 3⟩) (fun a => a % 256) (n := 3) (by decide) (by decide) 0 5 (by decide)
    obtain ⟨hread, hwindow⟩ := hbytes c 3 h hepoch
    refine ⟨c, h, hepoch, hhead, fun r hr k hk => ?_⟩
    have hstep : (deepseekTP.rings hB).tileGfpKs ((0 : Fin 2) : ℕ) 5 = (0, 5) := by decide
    have hwin := (hwindow 0 5 (hread _ _ _ hhead) 2 (by decide) r hr k hk).1 rfl
    simp only [hstep, show RingBuild.tileOf 3 = 1 from rfl] at hwin
    exact ⟨hwin.1 0 (by decide), hwin.2⟩
  · obtain ⟨c, h, hepoch, hhead⟩ := exists_product_head hB T 1024 3 (fun _ _ _ mem a => mem a + 1)
      (fun _ _ => ⟨5, 0, 3⟩) (fun a => a % 256) (n := 4) (by decide) (by decide) 1 7 (by decide)
    obtain ⟨hread, hwindow⟩ := hbytes c 4 h hepoch
    refine ⟨c, h, hepoch, hhead, fun r hr k hk => ?_⟩
    have hstep : (deepseekTP.rings hB).downGfpDk ((1 : Fin 2) : ℕ) 7 = (7, 1) := by decide
    have hwin := (hwindow 1 7 (hread _ _ _ hhead) 2 (by decide) r hr k hk).2 rfl
    simp only [hstep, show RingBuild.tileOf 4 = 1 from rfl] at hwin
    exact hwin

end UnimonoMoe
