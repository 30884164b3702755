import UnimonoMoe.Kernel.EpilogueSafety

/-!
# The symmetric memory of the fused epilogue

`_build_pool` allocates once what the fused epilogue shares between ranks: one output buffer per
slot, and the window of signal words, whose size the binary computes for the widest launch
(`tpPadWords`).  Every later launch uses its output buffer from offset 0 and the same window.

* `pad_window_sound`: whatever chunk and block counts the launches choose, the calls of
  `tp_rank_barrier` stay inside the window, and within one launch two calls never share a word.
* `shards_aligned_iff`: the shards of the reduction start on 512-byte boundaries exactly when the
  launch has one chunk or its chunks are whole numbers of 512-byte groups.  The shards are cut
  in groups of `TP_ALIGN` units, but counted from the start of their chunk.
-/

namespace UnimonoMoe

open Epochs LaunchArgs

/-! ## The pool -/

/-- `SymmOutputPool` as the kernel sees it. -/
structure SymmOutputPool where
  nslots : ℕ
  /-- `h.multicast_ptr` of every slot. -/
  mc : ℕ → ℕ
  padWords : ℕ
  /-- The symmetric allocator aligns every allocation. -/
  mc_aligned : ∀ slot < nslots, 512 ∣ mc slot

/-- `_build_pool` of a group of `world` ranks, with the multicast pointers the allocator hands out.
`sm.empty` refuses a negative size. -/
def SymmOutputPool.build (B : Build) (world nslots : ℕ) (mc : ℕ → ℕ)
    (mc_aligned : ∀ slot < nslots, 512 ∣ mc slot) : Option SymmOutputPool :=
  match tpPadWords B.tpMaxC ((B.gridSize : ℤ) - 1) world with
  | none => none
  | some words => if words < 0 then none else some ⟨nslots, mc, words.toNat, mc_aligned⟩

/-- The window of a pool holds one word per rank for every slot of the widest launch. -/
lemma SymmOutputPool.padWords_eq {B : Build} {world nslots : ℕ} {mc : ℕ → ℕ}
    {mc_aligned : ∀ slot < nslots, 512 ∣ mc slot} {pool : SymmOutputPool}
    (h : SymmOutputPool.build B world nslots mc mc_aligned = some pool) :
    pool.padWords = (B.tpMaxC * (B.gridSize - 1) + 1) * world := by
  unfold SymmOutputPool.build at h
  split at h
  · exact nomatch h
  · next words hwords =>
    have heq := (tpPadWords_eq_some hwords).1
    have hgrid : ((B.gridSize : ℤ) - 1) = ((B.gridSize - 1 : ℕ) : ℤ) := by
      have := B.gridSize_pos
      omega
    rw [hgrid] at heq
    have hnat : words = (((B.tpMaxC * (B.gridSize - 1) + 1) * world : ℕ) : ℤ) := by
      rw [heq]
      push_cast
      rfl
    split_ifs at h
    obtain rfl := Option.some.inj h
    change words.toNat = _
    rw [hnat]
    exact Int.toNat_natCast _

/-- A group with a pool has signal pads. -/
lemma SymmOutputPool.hasPads {B : Build} {world nslots : ℕ} {mc : ℕ → ℕ}
    {mc_aligned : ∀ slot < nslots, 512 ∣ mc slot} {pool : SymmOutputPool}
    (h : SymmOutputPool.build B world nslots mc mc_aligned = some pool) : HasPads B world := by
  unfold SymmOutputPool.build at h
  split at h
  · exact nomatch h
  · next words hwords => exact Option.isSome_iff_exists.mpr ⟨words, hwords⟩

/-! ## Signal words -/

section PadWindow

variable {B : Build} {world : ℕ} {a : LaunchArgs} {rank : Fin world} {t : B.Thread}
  {i : Instr world}

/-- The word that an operation of `rank` writes or polls: on whose pad, and where. -/
def padCell (a : LaunchArgs) (rank : Fin world) : Instr world → Option (Fin world × ℕ)
  | .signal b s => some (s, padWord world (b.slot a) rank)
  | .await b s => some (rank, padWord world (b.slot a) s)
  | _ => none

/-- The call of `tp_rank_barrier` the operation belongs to, and the rank whose arrival it tells or
waits for. -/
def padSignal (rank : Fin world) : Instr world → Option (RankBarrier × Fin world)
  | .signal b _ => some (b, rank)
  | .await b s => some (b, s)
  | _ => none

/-- The barriers that the threads of a launch call. -/
lemma valid_of_mem_blockProgram (hi : i ∈ blockProgram a rank t) {b : RankBarrier} {src : Fin world}
    (hsignal : padSignal rank i = some (b, src)) : b.Valid a := by
  have hruns := mem_blockProgram.mp hi
  have hcb : ∀ c cb, ¬ Computes a t ∧ IsLead t ∧ c < a.nchunk ∧ cb = t.1 - a.ncomp B →
      (RankBarrier.chunk c cb).Valid a := by
    rintro c cb ⟨hcomm, _, hc, rfl⟩
    have hblock := t.1.isLt
    have hncomp : a.ncomp B ≤ t.1 := not_lt.mp hcomm
    refine ⟨hc, ?_⟩
    unfold ncomp at hncomp ⊢
    omega
  cases i with
  | signal b' s =>
    obtain ⟨rfl, rfl⟩ := Prod.mk.inj (Option.some.inj hsignal)
    cases b' with
    | chunk c cb => exact hcb c cb hruns
    | exit => trivial
  | await b' s =>
    obtain ⟨rfl, rfl⟩ := Prod.mk.inj (Option.some.inj hsignal)
    cases b' with
    | chunk c cb => exact hcb c cb hruns
    | exit => trivial
  | _ => exact nomatch hsignal

/-- The word is the one of the call and of the rank it is about. -/
lemma padCell_eq_some {s : Fin world} {w : ℕ} (h : padCell a rank i = some (s, w)) :
    ∃ b src, padSignal rank i = some (b, src) ∧ w = padWord world (b.slot a) src := by
  cases i with
  | signal b s' =>
    obtain ⟨_, rfl⟩ := Prod.mk.inj (Option.some.inj h)
    exact ⟨b, rank, rfl, rfl⟩
  | await b s' =>
    obtain ⟨_, rfl⟩ := Prod.mk.inj (Option.some.inj h)
    exact ⟨b, s', rfl, rfl⟩
  | _ => exact nomatch h

/-- The slots of a launch are at most those of the widest launch. -/
lemma RankBarrier.Valid.slot_le {b : RankBarrier} (hb : b.Valid a) {nchunk ncomm : ℕ}
    (hchunk : a.nchunk ≤ nchunk) (hcomm : a.ncomm ≤ ncomm) : b.slot a ≤ nchunk * ncomm := by
  have hwidest : a.nchunk * a.ncomm ≤ nchunk * ncomm := Nat.mul_le_mul hchunk hcomm
  cases b with
  | exit => exact hwidest
  | chunk c cb => exact (Loops.rowMajor_lt hb.1 hb.2).le.trans hwidest

/-- The window that the pool allocates once serves every launch, whatever its chunk and block
counts: every word that a call of `tp_rank_barrier` writes or polls lies inside, two calls of one
launch or two source ranks never share a word, and what a rank polls for a peer is what the peer
writes. -/
theorem pad_window_sound {nslots : ℕ} {mc : ℕ → ℕ}
    {mc_aligned : ∀ slot < nslots, 512 ∣ mc slot} {pool : SymmOutputPool}
    (hpool : SymmOutputPool.build B world nslots mc mc_aligned = some pool) (a : LaunchArgs)
    (hchunk : 1 ≤ a.nchunk ∧ a.nchunk ≤ B.tpMaxC)
    (hcomm : 1 ≤ a.ncomm ∧ a.ncomm ≤ B.gridSize - 1) :
    (∀ (rank : Fin world) (t : B.Thread), ∀ i ∈ blockProgram a rank t, ∀ s w,
      padCell a rank i = some (s, w) → w < pool.padWords) ∧
    (∀ (rank rank' : Fin world) (t t' : B.Thread), ∀ i ∈ blockProgram a rank t,
      ∀ i' ∈ blockProgram a rank' t', ∀ s s' w, padCell a rank i = some (s, w) →
        padCell a rank' i' = some (s', w) → padSignal rank i = padSignal rank' i') ∧
    (∀ (rank peer : Fin world) (t : B.Thread) b, .await b peer ∈ blockProgram a rank t →
      .signal b rank ∈ blockProgram a peer t ∧
        padCell a peer (.signal b rank) = padCell a rank (.await b peer)) := by
  refine ⟨fun rank t i hi s w hcell => ?_,
    fun rank rank' t t' i hi i' hi' s s' w hcell hcell' => ?_,
    fun rank peer t b hawait => ⟨?_, rfl⟩⟩
  · obtain ⟨b, src, hsignal, rfl⟩ := padCell_eq_some hcell
    have hslot := (valid_of_mem_blockProgram hi hsignal).slot_le hchunk.2 hcomm.2
    rw [SymmOutputPool.padWords_eq hpool]
    exact Loops.rowMajor_lt (Nat.lt_succ_of_le hslot) src.isLt
  · obtain ⟨b, src, hsignal, hw⟩ := padCell_eq_some hcell
    obtain ⟨b', src', hsignal', hw'⟩ := padCell_eq_some hcell'
    obtain ⟨hslot, hsrc⟩ := padWord_inj src.isLt src'.isLt (hw.symm.trans hw')
    have hb := RankBarrier.slot_inj (valid_of_mem_blockProgram hi hsignal)
      (valid_of_mem_blockProgram hi' hsignal') hslot
    rw [hsignal, hsignal', hb, Fin.ext hsrc]
  · have hruns := mem_blockProgram.mp hawait
    refine mem_blockProgram.mpr ?_
    cases b with
    | chunk c cb => exact hruns
    | exit => exact hruns

/-- Eight ranks of the DeepSeek-V3 build: a launch with sixteen chunks and 131 communication
blocks stays inside the window of 16776 words. -/
theorem pad_window_sound_widest : ∃ pool, SymmOutputPool.build deepseekTP 8 1 (fun _ => 0)
    (fun _ _ => dvd_zero 512) = some pool ∧ pool.padWords = 16776 ∧
    ∀ (rank : Fin 8) (t : deepseekTP.Thread), ∀ i ∈ blockProgram ⟨16, 16, 131⟩ rank t, ∀ s w,
      padCell ⟨16, 16, 131⟩ rank i = some (s, w) → w < 16776 :=
  ⟨⟨1, fun _ => 0, 16776, fun _ _ => dvd_zero 512⟩, rfl, rfl,
    (pad_window_sound (rfl : SymmOutputPool.build deepseekTP 8 1 (fun _ => 0)
      (fun _ _ => dvd_zero 512) = some ⟨1, fun _ => 0, 16776, fun _ _ => dvd_zero 512⟩)
        ⟨16, 16, 131⟩ (by decide) (by decide)).1⟩

end PadWindow

/-! ## Shards and 512-byte lines -/

section Alignment

variable {B : Build} {a : LaunchArgs} {world : ℕ}

/-- `mc + v * TP_MM`: the address of unit `u` of a launch in a slot, two bytes per element. -/
def SymmOutputPool.unitAddr (pool : SymmOutputPool) (slot u : ℕ) : ℕ :=
  pool.mc slot + 2 * (u * Build.tpMM)

/-- Unit `u` belongs to what `tp_mm_reduce` of a communication block of `rank` processes in chunk
`c`. -/
def InShard (B : Build) (a : LaunchArgs) (world c rank cb u : ℕ) : Prop :=
  a.shardClip B world c (a.shardOf rank cb) ≤ u ∧ u < a.shardClip B world c (a.shardOf rank cb + 1)

/-- The first unit of every nonempty shard is a multiple of `TP_ALIGN` from the start of the
buffer. -/
def ShardsAligned (B : Build) (a : LaunchArgs) (world : ℕ) : Prop :=
  ∀ c < a.nchunk, ∀ rank < world, ∀ cb < a.ncomm,
    a.shardClip B world c (a.shardOf rank cb) < a.shardClip B world c (a.shardOf rank cb + 1) →
      Build.tpAlign ∣ a.shardClip B world c (a.shardOf rank cb)

/-- No 512-byte line of the slot holds units that two ranks reduce. -/
def LinesSeparate (B : Build) (a : LaunchArgs) (world : ℕ) (pool : SymmOutputPool) (slot : ℕ) :
    Prop :=
  ∀ c < a.nchunk, ∀ rank < world, ∀ cb < a.ncomm, ∀ u, InShard B a world c rank cb u →
    ∀ c' < a.nchunk, ∀ rank' < world, ∀ cb' < a.ncomm, ∀ u', InShard B a world c' rank' cb' u' →
      rank ≠ rank' → pool.unitAddr slot u / 512 ≠ pool.unitAddr slot u' / 512

/-- A line of a slot is a group of `TP_ALIGN` units. -/
lemma SymmOutputPool.line_eq (pool : SymmOutputPool) {slot : ℕ} (hslot : slot < pool.nslots)
    (u : ℕ) : pool.unitAddr slot u / 512 = pool.mc slot / 512 + u / Build.tpAlign := by
  obtain ⟨k, hk⟩ := pool.mc_aligned slot hslot
  unfold SymmOutputPool.unitAddr Build.tpMM Build.tpAlign
  omega

/-- The output consists of whole units. -/
lemma outMv_mul (B : Build) (a : LaunchArgs) : a.outMv B * Build.tpMM = a.numTokens * B.hDim := by
  obtain ⟨k, hk⟩ := B.hDim_dvd
  unfold outMv outElems
  refine Nat.div_mul_cancel ?_
  rw [hk]
  exact ⟨a.numTokens * (32 * k), by unfold Build.tpMM; ring⟩

/-- The output is a whole number of lines. -/
lemma tpAlign_dvd_outMv (B : Build) (a : LaunchArgs) : Build.tpAlign ∣ a.outMv B := by
  obtain ⟨k, hk⟩ := B.hDim_dvd
  have hmul := outMv_mul B a
  rw [hk, show a.numTokens * (256 * k) = 32 * (a.numTokens * k) * Build.tpMM by
    unfold Build.tpMM; ring] at hmul
  exact ⟨a.numTokens * k, Nat.eq_of_mul_eq_mul_right (by norm_num [Build.tpMM]) hmul⟩

/-- The length of a chunk in units. -/
lemma unitLo_mul (h : Admitted B a) :
    ∃ q, a.outMv B = a.nchunk * q ∧ ∀ c, a.unitLo B c = q * c := by
  obtain ⟨q, hq⟩ := nchunk_dvd_outVec h
  refine ⟨2 * q, ?_, fun c => ?_⟩
  · rw [outMv_eq, hq]
    ring
  · unfold unitLo
    rw [outMv_eq, hq, show 2 * (a.nchunk * q) * c = a.nchunk * (2 * q * c) by ring]
    exact Nat.mul_div_cancel_left _ h.nchunk_pos

/-- The chunks are whole numbers of lines. -/
lemma tpAlign_dvd_unitLo (h : Admitted B a)
    (hwhole : a.nchunk = 1 ∨ Build.tpAlign * Build.tpMM * a.nchunk ∣ a.numTokens * B.hDim) {c : ℕ}
    (hc : c ≤ a.nchunk) : Build.tpAlign ∣ a.unitLo B c := by
  rcases hwhole with hone | ⟨k, hk⟩
  · rw [hone] at hc
    interval_cases c
    · rw [unitLo_zero]
      exact dvd_zero _
    · rw [← hone, unitLo_nchunk h]
      exact tpAlign_dvd_outMv B a
  · obtain ⟨q, hq, hlo⟩ := unitLo_mul h
    have hmul := outMv_mul B a
    rw [hk, hq, show Build.tpAlign * Build.tpMM * a.nchunk * k =
      a.nchunk * (Build.tpAlign * k) * Build.tpMM by ring] at hmul
    have hlen : q = Build.tpAlign * k := Nat.eq_of_mul_eq_mul_left h.nchunk_pos
      (Nat.eq_of_mul_eq_mul_right (by norm_num [Build.tpMM]) hmul)
    rw [hlo, hlen, mul_assoc]
    exact dvd_mul_right _ _

/-- In such chunks every shard is a range of whole lines. -/
lemma tpAlign_dvd_shardClip (world : ℕ) {c : ℕ} (hlo : Build.tpAlign ∣ a.unitLo B c)
    (hhi : Build.tpAlign ∣ a.unitLo B (c + 1)) (sh : ℕ) :
    Build.tpAlign ∣ a.shardClip B world c sh := by
  unfold shardClip shardLo
  split_ifs
  · exact Nat.dvd_add hlo (Nat.dvd_mul_left _ _)
  · exact hhi

/-- The first unit of the line of `u` lies in the same range of whole lines. -/
lemma line_start_mem {lo hi u : ℕ} (hlo : Build.tpAlign ∣ lo) (hhi : Build.tpAlign ∣ hi) :
    lo ≤ u ∧ u < hi ↔ lo ≤ u / Build.tpAlign * Build.tpAlign ∧
      u / Build.tpAlign * Build.tpAlign < hi := by
  obtain ⟨k, rfl⟩ := hlo
  obtain ⟨m, rfl⟩ := hhi
  unfold Build.tpAlign
  omega

/-- A unit belongs to the shards of one rank only. -/
lemma InShard.rank_unique (h : Admitted B a) (hworld : 0 < world)
    (hfit : world * a.ncomm < 2 ^ 31) {c c' rank rank' cb cb' u : ℕ}
    (hc : c < a.nchunk) (hc' : c' < a.nchunk) (hrank : rank < world) (hrank' : rank' < world)
    (hcb : cb < a.ncomm) (hcb' : cb' < a.ncomm) (hu : InShard B a world c rank cb u)
    (hu' : InShard B a world c' rank' cb' u) : rank = rank' := by
  have hchunk : ∀ {c rank cb}, InShard B a world c rank cb u →
      a.unitLo B c ≤ u ∧ u < a.unitLo B (c + 1) := by
    intro c rank cb hmem
    have hfirst : a.unitLo B c ≤ a.shardLo B world c (a.shardOf rank cb) :=
      unitLo_le_shardLo world c _
    obtain ⟨hlo, hhi⟩ := hmem
    rw [shardClip_eq_min] at hlo hhi
    exact ⟨(le_min hfirst (unitLo_mono (Nat.le_succ c))).trans hlo, hhi.trans_le (min_le_right _ _)⟩
  have hlt : u < a.outMv B :=
    (hchunk hu).2.trans_le ((unitLo_mono hc).trans_eq (unitLo_nchunk h))
  obtain rfl := (exists_unique_chunk h hlt).unique ⟨hc, hchunk hu⟩ ⟨hc', hchunk hu'⟩
  have hshard := (exists_unique_shard h hworld hfit hc (hchunk hu).1 (hchunk hu).2).unique
    ⟨shardOf_lt hfit hrank hcb, hu⟩ ⟨shardOf_lt hfit hrank' hcb', hu'⟩
  exact (shardOf_inj hfit hrank hrank' hcb hcb' hshard).1

/-- Aligned chunks keep the ranks out of each other's lines. -/
lemma linesSeparate_of_aligned (h : Admitted B a) (hworld : 0 < world)
    (hfit : world * a.ncomm < 2 ^ 31)
    (haligned : ∀ c ≤ a.nchunk, Build.tpAlign ∣ a.unitLo B c) (pool : SymmOutputPool) {slot : ℕ}
    (hslot : slot < pool.nslots) : LinesSeparate B a world pool slot := by
  intro c hc rank hrank cb hcb u hu c' hc' rank' hrank' cb' hcb' u' hu' hne hline
  rw [pool.line_eq hslot, pool.line_eq hslot] at hline
  have hsame : u / Build.tpAlign = u' / Build.tpAlign := Nat.add_left_cancel hline
  have hclip := fun c (hc : c < a.nchunk) sh =>
    tpAlign_dvd_shardClip world (haligned c hc.le) (haligned (c + 1) hc) sh
  have hstart := (line_start_mem (hclip c hc _) (hclip c hc _)).mp hu
  have hstart' := (line_start_mem (hclip c' hc' _) (hclip c' hc' _)).mp hu'
  rw [← hsame] at hstart'
  exact hne (InShard.rank_unique h hworld hfit hc hc' hrank hrank' hcb hcb' hstart hstart')

/-- The first unit of a chunk is the first unit of some shard. -/
lemma exists_shard_at_unitLo (h : Admitted B a) (hworld : 0 < world)
    (hfit : world * a.ncomm < 2 ^ 31) {c : ℕ} (hc : c < a.nchunk)
    (hlen : a.unitLo B c < a.unitLo B (c + 1)) :
    ∃ rank < world, ∃ cb < a.ncomm, a.shardClip B world c (a.shardOf rank cb) = a.unitLo B c ∧
      a.unitLo B c < a.shardClip B world c (a.shardOf rank cb + 1) := by
  obtain ⟨sh, ⟨hsh, hlo, hhi⟩, _⟩ := exists_unique_shard h hworld hfit hc le_rfl hlen
  obtain ⟨hrank, hcb, hsplit⟩ := shardOf_div_mod h hfit hsh
  refine ⟨sh / a.ncomm, hrank, sh % a.ncomm, hcb, ?_⟩
  rw [hsplit]
  refine ⟨le_antisymm hlo ?_, hhi⟩
  rw [shardClip_eq_min]
  exact le_min (unitLo_le_shardLo world c sh) hlen.le

/-- In every slot of the pool, the shards of a launch start on 512-byte boundaries and keep the
ranks out of each other's lines exactly when the launch has a single chunk or its chunks are whole
numbers of 512-byte groups. -/
theorem shards_aligned_iff {rank : ℕ} (hncomm : 1 ≤ a.ncomm)
    (hcall : launcherCheck B (a.call B rank world) = 0) {nslots : ℕ} {mc : ℕ → ℕ}
    {mc_aligned : ∀ slot < nslots, 512 ∣ mc slot} {pool : SymmOutputPool}
    (hpool : SymmOutputPool.build B world nslots mc mc_aligned = some pool) {slot : ℕ}
    (hslot : slot < pool.nslots) :
    (ShardsAligned B a world ∧ LinesSeparate B a world pool slot) ↔
      a.nchunk = 1 ∨ Build.tpAlign * Build.tpMM * a.nchunk ∣ a.numTokens * B.hDim := by
  have h := Admitted.of_launcherCheck hncomm hcall
  have haccepted := launcherCheck_eq_zero_iff.mp hcall
  have hworld : 0 < world := by
    have hone : (1 : ℤ) ≤ world := (haccepted.rank ⟨rfl, Int.natCast_pos.mpr hncomm⟩).1
    omega
  have hfit : world * a.ncomm < 2 ^ 31 := (SymmOutputPool.hasPads hpool).shards_lt h
  have htokens : 0 < a.numTokens := Int.natCast_pos.mp haccepted.numTokens_pos
  constructor
  · rintro ⟨haligned, _⟩
    refine or_iff_not_imp_left.mpr fun hne => ?_
    obtain ⟨q, hq, hlo⟩ := unitLo_mul h
    have hmul := outMv_mul B a
    have hqpos : 0 < q := by
      refine Nat.pos_of_ne_zero fun hzero => ?_
      rw [hq, hzero, mul_zero, zero_mul] at hmul
      exact (Nat.mul_pos htokens B.hDim_pos).ne hmul
    -- the second chunk begins one chunk length into the buffer
    have hchunk : 1 < a.nchunk := by
      have := h.nchunk_pos
      omega
    obtain ⟨r, hr, cb, hcb, hstart, hnonempty⟩ :=
      exists_shard_at_unitLo h hworld hfit hchunk (by rw [hlo, hlo]; omega)
    have hdvd := haligned 1 hchunk r hr cb hcb (by rwa [hstart])
    rw [hstart, hlo, mul_one] at hdvd
    rw [← hmul, hq, show Build.tpAlign * Build.tpMM * a.nchunk =
      a.nchunk * Build.tpAlign * Build.tpMM by ring]
    exact Nat.mul_dvd_mul_right (Nat.mul_dvd_mul_left _ hdvd) _
  · intro hwhole
    have hunit : ∀ c ≤ a.nchunk, Build.tpAlign ∣ a.unitLo B c :=
      fun c hc => tpAlign_dvd_unitLo h hwhole hc
    refine ⟨fun c hc r _ cb _ _ => ?_, linesSeparate_of_aligned h hworld hfit hunit pool hslot⟩
    exact tpAlign_dvd_shardClip world (hunit c hc.le) (hunit (c + 1) hc) _

/-- The pool of eight ranks with one slot. -/
def oneSlot : SymmOutputPool := ⟨1, fun _ => 0, 16776, fun _ _ => dvd_zero 512⟩

/-- It is what `_build_pool` builds. -/
lemma build_oneSlot :
    SymmOutputPool.build deepseekTP 8 1 (fun _ => 0) (fun _ _ => dvd_zero 512) = some oneSlot :=
  rfl

/-- Four tokens in sixteen chunks of 224 units on eight ranks. -/
theorem shards_aligned_iff_fourTokens :
    ShardsAligned deepseekTP ⟨4, 16, 1⟩ 8 ∧ LinesSeparate deepseekTP ⟨4, 16, 1⟩ 8 oneSlot 0 :=
  (shards_aligned_iff (by decide) (by decide :
    launcherCheck deepseekTP (LaunchArgs.call deepseekTP ⟨4, 16, 1⟩ 0 8) = 0) build_oneSlot
      Nat.one_pos).mpr (Or.inr (by decide))

/-- One token in sixteen chunks of 56 units on eight ranks: the second chunk starts off the
boundary, and ranks 3 and 7 share one of its lines. -/
theorem shards_misaligned :
    launcherCheck deepseekTP (LaunchArgs.call deepseekTP ⟨1, 16, 1⟩ 0 8) = 0 ∧
    ¬ ShardsAligned deepseekTP ⟨1, 16, 1⟩ 8 ∧
    ¬ LinesSeparate deepseekTP ⟨1, 16, 1⟩ 8 oneSlot 0 := by
  refine ⟨by decide, fun haligned => ?_, fun hlines => ?_⟩
  · exact absurd (haligned 1 (by decide) 3 (by decide) 0 (by decide) (by decide)) (by decide)
  · exact hlines 1 (by decide) 3 (by decide) 0 (by decide) 87 ⟨by decide, by decide⟩
      1 (by decide) 7 (by decide) 0 (by decide) 88 ⟨by decide, by decide⟩ (by decide)
        (by decide)

end Alignment

end UnimonoMoe
