import UnimonoMoe.Kernel.ActQuant
import UnimonoMoe.Kernel.OperandPipelines
import UnimonoMoe.Lib.Swizzle
import Mathlib.Tactic.Linarith

/-!
# Where the operands lie in shared memory

The dynamic shared memory of a block.  A persistent part holds the quantized intermediate, its
scales and the rows of the tile; behind it, from a 1024-byte boundary on, `up_phase` and
`down_phase` lay out their rings over the same bytes.  The constants are those of the source; `shm`
is where the dynamic shared memory begins.

Inside a ring slot the operand of a `wgmma` is stored as rows of 128 bytes whose eight chunks of 16
bytes are permuted by the row.  `chunkAddr` is the address as `stage_A` computes it, `swizzle128`
what the hardware makes of an address for a bulk load or for the fetch of an operand.  They agree
(`chunkAddr_eq`), because every slot begins at a multiple of 1024.
-/

namespace UnimonoMoe

open Loops Swizzles

/-! ## Constants -/

/-- `A_STAGES` -/
def aStages : ℕ := 4

/-- `UP_PIPE` -/
def upPipe : ℕ := 4

/-- `DN_PIPE` -/
def dnPipe : ℕ := 2

/-- `B_SHM`, the bytes of a weight tile. -/
def bShm : ℕ := 64 * 128

namespace Build

variable (B : Build)

/-- `D_KBLK` -/
def dKblk : ℕ := B.nHalf / 128

/-- `GATE_PASSES` -/
def gatePasses : ℕ := B.nHalf / nFeat

/-- `M_SUBS` -/
def mSubs : ℕ := (B.blockM + 63) / 64

/-- `A_PAD` -/
def aPad : ℕ := B.mSubs * 64

/-- `A_BLK` -/
def aBlk : ℕ := B.aPad * 128

/-- `A_ITERS` -/
def aIters : ℕ := B.aPad * 8 / B.blockSize

/-- `A_RING` -/
def aRingBytes : ℕ := aStages * B.aBlk

/-- `INTER_SHM` -/
def interShm : ℕ := B.dKblk * B.aBlk

/-- `SCALE_SHM_B` -/
def scaleShm : ℕ := B.aPad * B.dKblk * 4

/-- `ROW_META_B` -/
def rowMeta : ℕ := B.aPad * 4 + B.aPad * 4

/-- `PERSIST` -/
def persist : ℕ := (B.interShm + B.scaleShm + B.rowMeta + 1023) / 1024 * 1024

/-- `UP_TRANS` -/
def upTrans : ℕ := B.aRingBytes + numWg * upPipe * bShm + numWg * upPipe * 16

/-- `DN_TRANS` -/
def dnTrans : ℕ := numWg * dnPipe * bShm + numWg * dnPipe * 16

/-- `WB_STAGE_B` -/
def wbStageBytes : ℕ := numWg * 64 * 64 * 4

/-- `TRANS` -/
def trans : ℕ := max B.upTrans (dnTrans + wbStageBytes)

/-- `SHM_TOTAL` -/
def shmTotal : ℕ := B.persist + B.trans + 256

/-- What the tiling of the two projections takes for granted, and the static assertions about
it. -/
structure Tiled : Prop where
  kDim_dvd : 128 ∣ B.kDim
  nHalf_dvd : 128 ∣ B.nHalf
  /-- `A_STAGES <= N_KBLK` -/
  aStages_le : aStages ≤ B.nKblk
  /-- `SHM_TOTAL <= 227*1024` -/
  shmTotal_le : B.shmTotal ≤ 227 * 1024

/-- The three builds meet the assumptions and the assertions. -/
lemma Shipped.tiled {B : Build} (h : B.Shipped) : B.Tiled := by
  rcases h with rfl | rfl | rfl <;> exact ⟨by decide, by decide, by decide, by decide⟩

variable {B}

/-- `M_SUBS` of every build. -/
@[simp] lemma mSubs_eq : B.mSubs = 2 := by
  unfold mSubs
  rw [B.blockM_eq]

/-- `A_PAD` of every build. -/
@[simp] lemma aPad_eq : B.aPad = 128 := by
  unfold aPad
  rw [mSubs_eq]

/-- `A_BLK` of every build. -/
@[simp] lemma aBlk_eq : B.aBlk = 16384 := by
  unfold aBlk
  rw [aPad_eq]

/-- How often a thread copies for a block of activations. -/
@[simp] lemma aIters_eq : B.aIters = 4 := by
  unfold aIters
  rw [aPad_eq, blockSize_eq_256]

/-- `A_RING` of every build. -/
@[simp] lemma aRingBytes_eq : B.aRingBytes = 65536 := by
  unfold aRingBytes
  rw [aBlk_eq]
  rfl

/-- The transient part starts at a multiple of 1024. -/
lemma dvd_persist : 1024 ∣ B.persist := Dvd.intro_left _ rfl

/-- The persistent part holds its three members. -/
lemma persist_le : B.interShm + B.scaleShm + B.rowMeta ≤ B.persist := by
  unfold persist
  omega

/-- Both phases end within the total. -/
lemma transient_le : B.persist + (65536 + 2 * 4 * 8192) ≤ B.shmTotal ∧
    B.persist + 2 * 2 * 8192 ≤ B.shmTotal := by
  have hup : B.upTrans ≤ B.trans := le_max_left _ _
  have hdown : B.upTrans = 65536 + 2 * 4 * 8192 + 2 * 4 * 16 := by
    unfold upTrans
    rw [aRingBytes_eq]
    rfl
  unfold shmTotal
  omega

/-- The activation ring has at least three slots. -/
lemma three_le_stages : 3 ≤ aStages := Nat.le_succ 3

/-- The constants of the tile loop of a build. -/
def rings (B : Build) (h : B.Tiled) : RingBuild where
  nKblk := B.nKblk
  gatePasses := B.gatePasses
  dKblk := B.dKblk
  passesPerWg := B.passesPerWg
  aStages := aStages
  upPipe := upPipe
  dnPipe := dnPipe
  mSubs := B.mSubs
  aIters := B.aIters
  bShm := bShm
  three_le_aStages := three_le_stages
  aStages_le := h.aStages_le
  upPipe_pos := zero_lt_four_stages
  dnPipe_pos := Nat.two_pos
  mSubs_pos := mSubs_eq ▸ Nat.two_pos

/-- The activation ring of a build. -/
@[simp] lemma rings_aStages (h : B.Tiled) : (B.rings h).aStages = 4 := rfl

/-- The copies of a thread in the ring of a build. -/
@[simp] lemma rings_aIters (h : B.Tiled) : (B.rings h).aIters = 4 := aIters_eq

/-- The bytes of a weight slot. -/
@[simp] lemma rings_bShm (h : B.Tiled) : (B.rings h).bShm = 8192 := rfl

/-- The products of a step, one for each half of the rows. -/
@[simp] lemma rings_mSubs (h : B.Tiled) : (B.rings h).mSubs = 2 := mSubs_eq

/-- The weight rings are four slots deep in an up phase and two in a down phase. -/
lemma rings_depth (h : B.Tiled) (n : ℕ) :
    (B.rings h).depth n = if RingBuild.isUp n then 4 else 2 := rfl

/-- There are as many gate passes as passes of both warpgroups. -/
lemma Tiled.gatePasses_eq (h : B.Tiled) : B.gatePasses = B.gatePasses / numWg * numWg := by
  obtain ⟨k, hk⟩ := h.nHalf_dvd
  unfold gatePasses nFeat numWg
  omega

end Build

/-! ## Swizzled rows -/

/-- The 128-byte swizzle: the chunk of 16 bytes within a row of 128 bytes is combined with the row
modulo 8. -/
def swizzle128 (a : ℕ) : ℕ := swizzle 3 4 3 a

/-- The swizzle sends different addresses to different addresses. -/
lemma swizzle128_inj {a a' : ℕ} : swizzle128 a = swizzle128 a' ↔ a = a' :=
  (swizzle_injective le_rfl).eq_iff

/-- The row of an address stays. -/
lemma swizzle128_div (a : ℕ) : swizzle128 a / 128 = a / 128 := swizzle_div (b := 3) (m := 4) a

/-- The swizzle of a byte that is given by its row, chunk and place in the chunk. -/
lemma swizzle128_chunk {base r c b : ℕ} (hbase : 1024 ∣ base) (hc : c < 8) (hb : b < 16) :
    swizzle128 (base + (r * 128 + c * 16 + b)) = base + (r * 128 + (c ^^^ (r % 8)) * 16 + b) := by
  obtain ⟨k, rfl⟩ := hbase
  have haddr : 1024 * k + (r * 128 + c * 16 + b) = ((8 * k + r) * 2 ^ 3 + c) * 2 ^ 4 + b := by ring
  have hkey : (((8 * k + r) * 2 ^ 3 + c) * 2 ^ 4 + b) / 2 ^ (4 + 3) % 2 ^ 3 = r % 8 := by
    norm_num
    omega
  unfold swizzle128
  rw [haddr, swizzle_parts (show c < 2 ^ 3 from hc) (show b < 2 ^ 4 from hb), hkey]
  ring

/-! ## Addresses -/

section Addresses

variable (B : Build) (shm : ℕ)

/-- `trans`, where the rings begin. -/
def transBase : ℕ := shm + B.persist

/-- `a_ring + slot * A_BLK` -/
def aSlot (slot : ℕ) : ℕ := transBase B shm + slot * B.aBlk

/-- `b_ring + slot * B_SHM` of a warpgroup, in the phase of epoch `n`. -/
def bSlot (n w slot : ℕ) : ℕ :=
  if RingBuild.isUp n then
    transBase B shm + B.aRingBytes + w * upPipe * bShm + slot * bShm
  else transBase B shm + w * dnPipe * bShm + slot * bShm

/-- `d` of `stage_A`: where thread `t` puts chunk `it` of an activation block. -/
def chunkAddr (slot : ℕ) (t : Tid) (it : ℕ) : ℕ :=
  let idx := it * 256 + t
  let m := idx >>> 3
  let c := idx &&& 7
  aSlot B shm slot + m * 128 + ((c ^^^ (m &&& 7)) <<< 4)

/-- The bytes that belong to the rings of the phase of epoch `n`. -/
def ringBytes (n : ℕ) : ℕ :=
  if RingBuild.isUp n then B.aRingBytes + numWg * upPipe * bShm else numWg * dnPipe * bShm

/-- An address in the rings of the phase of epoch `n`. -/
def InRings (n a : ℕ) : Prop := transBase B shm ≤ a ∧ a < transBase B shm + ringBytes B n

instance (n a : ℕ) : Decidable (InRings B shm n a) := inferInstanceAs (Decidable (_ ∧ _))

variable {B shm} {n w slot p : ℕ}

/-- The transient part of an aligned block is aligned. -/
lemma dvd_transBase (hshm : 1024 ∣ shm) : 1024 ∣ transBase B shm :=
  (Nat.dvd_add_right hshm).mpr B.dvd_persist

/-- So are the slots of the activation ring. -/
lemma dvd_aSlot (hshm : 1024 ∣ shm) : 1024 ∣ aSlot B shm slot := by
  obtain ⟨k, hk⟩ := dvd_transBase (B := B) hshm
  unfold aSlot
  rw [Build.aBlk_eq]
  omega

/-- And those of the weight rings. -/
lemma dvd_bSlot (hshm : 1024 ∣ shm) : 1024 ∣ bSlot B shm n w slot := by
  obtain ⟨k, hk⟩ := dvd_transBase (B := B) hshm
  unfold bSlot bShm upPipe dnPipe
  rw [Build.aRingBytes_eq]
  split <;> omega

/-- `stage_A` writes a chunk where the hardware looks for it. -/
theorem chunkAddr_eq (hshm : 1024 ∣ shm) (t : Tid) (it : ℕ) {b : ℕ} (hb : b < 16) :
    chunkAddr B shm slot t it + b =
      swizzle128 (aSlot B shm slot + ((it * 256 + t) * 16 + b)) := by
  have hrow : (it * 256 + (t : ℕ)) >>> 3 = (it * 256 + t) / 8 := Nat.shiftRight_eq_div_pow _ 3
  have hchunk : (it * 256 + (t : ℕ)) &&& 7 = (it * 256 + t) % 8 :=
    Nat.and_two_pow_sub_one_eq_mod _ 3
  have hphase : (it * 256 + (t : ℕ)) / 8 &&& 7 = (it * 256 + t) / 8 % 8 :=
    Nat.and_two_pow_sub_one_eq_mod _ 3
  have hplace : (it * 256 + (t : ℕ)) * 16 + b =
      (it * 256 + t) / 8 * 128 + (it * 256 + t) % 8 * 16 + b := by omega
  rw [hplace, swizzle128_chunk (dvd_aSlot hshm) (Nat.mod_lt _ (by decide)) hb]
  unfold chunkAddr
  simp only [hrow, hchunk, hphase, Nat.shiftLeft_eq]
  ring

/-- The swizzle permutes the bytes of the rings. -/
lemma inRings_swizzle128 (hshm : 1024 ∣ shm) {a : ℕ} :
    InRings B shm n (swizzle128 a) ↔ InRings B shm n a := by
  obtain ⟨k, hk⟩ := dvd_transBase (B := B) hshm
  obtain ⟨j, hj⟩ : 1024 ∣ ringBytes B n := by
    unfold ringBytes
    rw [Build.aRingBytes_eq]
    split <;> decide
  have hrow := swizzle128_div a
  unfold InRings
  omega

/-- The bytes of an activation slot lie in the rings of an up phase. -/
lemma inRings_aSlot (hn : RingBuild.isUp n = true) (hslot : slot < 4) (hp : p < 16384) :
    InRings B shm n (aSlot B shm slot + p) := by
  unfold InRings ringBytes aSlot numWg upPipe bShm
  rw [hn, Build.aRingBytes_eq, Build.aBlk_eq]
  simp only [if_true]
  omega

/-- The bytes of a weight slot lie in the rings of its phase. -/
lemma inRings_bSlot (hw : w < 2) (hslot : slot < if RingBuild.isUp n then 4 else 2)
    (hp : p < 8192) : InRings B shm n (bSlot B shm n w slot + p) := by
  unfold InRings ringBytes bSlot numWg upPipe dnPipe bShm
  rw [Build.aRingBytes_eq]
  split_ifs at hslot ⊢ <;> omega

/-- A byte of the activation ring is in one slot, at one place. -/
lemma aSlot_inj {slot' p' : ℕ} (hp : p < 16384) (hp' : p' < 16384)
    (heq : aSlot B shm slot + p = aSlot B shm slot' + p') : slot = slot' ∧ p = p' := by
  unfold aSlot at heq
  rw [Build.aBlk_eq] at heq
  omega

/-- A byte of the weight rings is in one slot of one warpgroup, at one place. -/
lemma bSlot_inj {w' slot' p' : ℕ} (hslot : slot < if RingBuild.isUp n then 4 else 2)
    (hslot' : slot' < if RingBuild.isUp n then 4 else 2) (hp : p < 8192) (hp' : p' < 8192)
    (heq : bSlot B shm n w slot + p = bSlot B shm n w' slot' + p') :
    w = w' ∧ slot = slot' ∧ p = p' := by
  unfold bSlot upPipe dnPipe bShm at heq
  split_ifs at hslot hslot' heq <;> omega

/-- The activation ring ends before the weight rings of `up_phase` begin. -/
lemma aSlot_ne_bSlot (hn : RingBuild.isUp n = true) (hslot : slot < 4) (hp : p < 16384)
    {slot' p' : ℕ} : aSlot B shm slot + p ≠ bSlot B shm n w slot' + p' := by
  unfold aSlot bSlot
  rw [hn, Build.aRingBytes_eq, Build.aBlk_eq]
  simp only [if_true]
  omega

/-- The rings lie inside the shared memory of the block. -/
lemma InRings.lt {a : ℕ} (h : InRings B shm n a) : a < shm + B.shmTotal := by
  have htotal := B.transient_le
  obtain ⟨-, hlt⟩ := h
  unfold ringBytes transBase numWg upPipe dnPipe bShm at hlt
  rw [Build.aRingBytes_eq] at hlt
  split at hlt <;> omega

end Addresses

end UnimonoMoe
