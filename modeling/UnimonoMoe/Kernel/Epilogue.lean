import UnimonoMoe.Kernel.Partition
import UnimonoMoe.Lib.Epochs
import Mathlib.Algebra.BigOperators.Group.Finset.Basic
import Mathlib.Data.Fintype.Prod
import Mathlib.Data.List.FinRange

/-!
# The fused epilogue as a machine

Phase 3 of the kernel with the tensor-parallel epilogue switched on, together with the publication
of the launch sequence at the start of the kernel.  Every rank runs the launches of a sequence
`Launches` one after the other; in each launch every thread of every block runs the program
`blockProgram`.  One entry of a program is one memory operation, one barrier, or one round of a
spin loop that ends it: the spin loops are entries that are enabled only when their condition
holds.

Memory operations are atomic and sequentially consistent, so the fences have no effect.  The grid
barrier and `__syncthreads` are entries that let a thread pass once all threads of the grid or of
the block have reached them.  The phases before phase 3 appear only through what they leave
behind, the value `part n r u` that rank `r` is about to store in unit `u` in launch `n`.
-/

namespace UnimonoMoe

open Epochs Loops LaunchArgs

/-! ## Programs -/

/-- The `__syncthreads` of phase 3. -/
inductive Site
  | chunkStored (c : ℕ)
  | chunkReady (c : ℕ)
  | chunkReleased (c : ℕ)
  | allReduced
  | retired
deriving DecidableEq, Repr

/-- The calls of `tp_rank_barrier`: one per chunk and communication block, and one at the end. -/
inductive RankBarrier
  | chunk (c cb : ℕ)
  | exit
deriving DecidableEq, Repr

/-- The operations of a thread. -/
inductive Instr (world : ℕ)
  /-- `s = atomicAdd(tp_seqctr, 1) + 1` -/
  | bumpSeq
  /-- `atomicExch(&ws->tp_seq_pub, s)` -/
  | publishSeq
  /-- `sync_grid()` -/
  | syncGrid (site : ℕ)
  /-- `tp_seq_eff = tp_ld_relaxed(&ws->tp_seq_pub)` -/
  | loadSeq
  /-- the 16-byte store of one unit of `bf16_output` -/
  | storeOut (c u : ℕ)
  /-- `__threadfence_system()` before a `__syncthreads()` -/
  | fenceSystem (s : Site)
  /-- `__syncthreads()` -/
  | syncThreads (s : Site)
  /-- `atomicAdd(&ws->tp_ready[c], 1)` -/
  | arriveReady (c : ℕ)
  /-- `while (tp_ld_relaxed(&ws->tp_ready[c]) < ncomp)` -/
  | awaitReady (c : ℕ)
  /-- `st.release` of the sequence into rank `r`'s pad -/
  | signal (b : RankBarrier) (r : Fin world)
  /-- `while (v < seq)` on the own pad's word of rank `r` -/
  | await (b : RankBarrier) (r : Fin world)
  /-- `tp_mm_ld` of one unit -/
  | ldReduce (c u : ℕ)
  /-- `tp_mm_st` of one unit -/
  | stMulticast (c u : ℕ)
  /-- `atomicAdd(&ws->tp_done_local, 1) == tp_ncomm - 1` -/
  | arriveDone
  /-- `__threadfence()` -/
  | fence
  /-- `atomicExch(&ws->tp_done_flag, 1)` -/
  | setDone
  /-- `while (tp_ld_relaxed(&ws->tp_done_flag) == 0)` -/
  | awaitDone
deriving DecidableEq, Repr

/-- The slot that a call of `tp_rank_barrier` passes. -/
def RankBarrier.slot (a : LaunchArgs) : RankBarrier → ℕ
  | .chunk c cb => c * a.ncomm + cb
  | .exit => a.nchunk * a.ncomm

/-- The word of a pad that rank `src` writes for `slot`. -/
def padWord (world slot src : ℕ) : ℕ := slot * world + src

/-- `prefill_wgmma_tp_pad_words`: `(nchunk * ncomm + 1) * world`. -/
def tpPadWords (nchunk ncomm world : ℤ) : Option ℤ := do
  let slots ← cInt (nchunk * ncomm)
  let slots ← cInt (slots + 1)
  cInt (slots * world)

/-- The size of a window, where it has one. -/
lemma tpPadWords_eq_some {nchunk ncomm world words : ℤ}
    (h : tpPadWords nchunk ncomm world = some words) :
    words = (nchunk * ncomm + 1) * world ∧ words < 2 ^ 31 := by
  simp only [tpPadWords, Option.bind_eq_bind, Option.bind_eq_some_iff, cInt_eq_some_iff] at h
  obtain ⟨_, ⟨_, rfl⟩, _, ⟨_, rfl⟩, hrange, heq⟩ := h
  exact ⟨heq.symm, heq ▸ hrange.2⟩

/-- There are signal pads for a group of `world` ranks: the window that `_build_pool` asks for has
a size. -/
def HasPads (B : Build) (world : ℕ) : Prop :=
  (tpPadWords B.tpMaxC ((B.gridSize : ℤ) - 1) world).isSome

instance (B : Build) (world : ℕ) : Decidable (HasPads B world) :=
  inferInstanceAs (Decidable ((tpPadWords _ _ _).isSome = true))

/-- A world with signal pads is small enough for its shards to be counted. -/
lemma HasPads.shards_lt {B : Build} {world : ℕ} {a : LaunchArgs} (h : HasPads B world)
    (ha : Admitted B a) : world * a.ncomm < 2 ^ 31 := by
  obtain ⟨words, hwords⟩ := Option.isSome_iff_exists.mp h
  obtain ⟨heq, hlt⟩ := tpPadWords_eq_some hwords
  have hchunk : 1 ≤ B.tpMaxC := ha.nchunk_pos.trans ha.nchunk_le
  have hgrid : ((B.gridSize : ℤ) - 1) = ((B.gridSize - 1 : ℕ) : ℤ) := by
    have := B.gridSize_pos
    omega
  rw [hgrid] at heq
  have hnat : (B.tpMaxC * (B.gridSize - 1) + 1) * world < 2 ^ 31 := by
    rw [heq] at hlt
    exact_mod_cast hlt
  have hcomm : a.ncomm ≤ B.tpMaxC * (B.gridSize - 1) + 1 := by
    calc a.ncomm ≤ B.gridSize - 1 := Nat.le_sub_one_of_lt ha.ncomm_lt
      _ ≤ B.tpMaxC * (B.gridSize - 1) := Nat.le_mul_of_pos_left _ hchunk
      _ ≤ B.tpMaxC * (B.gridSize - 1) + 1 := Nat.le_succ _
  calc world * a.ncomm ≤ world * (B.tpMaxC * (B.gridSize - 1) + 1) := Nat.mul_le_mul_left _ hcomm
    _ = (B.tpMaxC * (B.gridSize - 1) + 1) * world := Nat.mul_comm _ _
    _ < 2 ^ 31 := hnat

section Program

variable {world : ℕ} (B : Build) (a : LaunchArgs)

/-- `tp_rank_barrier`: arrive on every peer's slot, then wait for every peer on the own slots. -/
def rankBarrier (b : RankBarrier) : List (Instr world) :=
  (List.finRange world).map (Instr.signal b) ++ (List.finRange world).map (Instr.await b)

variable {B}

/-- What only thread 0 of a block runs. -/
def ifLead (t : B.Thread) (l : List (Instr world)) : List (Instr world) :=
  if (t.2 : ℕ) = 0 then l else []

/-- The start of the kernel up to phase 3.  Block 0 publishes the sequence before the first grid
barrier. -/
def prologue (t : B.Thread) : List (Instr world) :=
  (if (t.1 : ℕ) = 0 ∧ (t.2 : ℕ) = 0 then [.bumpSeq, .publishSeq] else []) ++
    ((List.range Build.numBarrierSites).map Instr.syncGrid ++ [.loadSeq])

/-- One chunk of a compute block. -/
def computeChunk (t : B.Thread) (c : ℕ) : List (Instr world) :=
  (a.computeUnits B c t).map (Instr.storeOut c) ++
    ([.fenceSystem (.chunkStored c), .syncThreads (.chunkStored c)] ++
      ifLead t [.arriveReady c])

/-- `tp_mm_reduce` over the shard of a communication block: in every pass all loads before all
stores. -/
def reduceShard (rank : Fin world) (t : B.Thread) (c : ℕ) : List (Instr world) :=
  (a.reduceBases B world c (a.shardOf rank (t.1 - a.ncomp B)) t.2).flatMap fun base =>
    (a.reducePass B world c (a.shardOf rank (t.1 - a.ncomp B)) base).map (Instr.ldReduce c) ++
      (a.reducePass B world c (a.shardOf rank (t.1 - a.ncomp B)) base).map (Instr.stMulticast c)

/-- One chunk of a communication block. -/
def commChunk (rank : Fin world) (t : B.Thread) (c : ℕ) : List (Instr world) :=
  ifLead t [.awaitReady c] ++ ([.syncThreads (.chunkReady c)] ++
    (ifLead t (rankBarrier (.chunk c (t.1 - a.ncomp B))) ++
      ([.syncThreads (.chunkReleased c)] ++ reduceShard a rank t c)))

/-- The end of a communication block.  Only the last block to arrive, as told by its register
`last`, runs the exit barrier and sets the flag; the others wait for the flag. -/
def retire (t : B.Thread) : List (Instr world) :=
  [.fenceSystem .allReduced, .syncThreads .allReduced] ++
    (ifLead t ([.arriveDone] ++ (rankBarrier .exit ++ [.fence, .setDone, .awaitDone])) ++
      [.syncThreads .retired])

/-- The program of thread `t` of rank `rank` in one launch. -/
def blockProgram (rank : Fin world) (t : B.Thread) : List (Instr world) :=
  prologue t ++
    if (t.1 : ℕ) < a.ncomp B then (List.range a.nchunk).flatMap (computeChunk a t)
    else (List.range a.nchunk).flatMap (commChunk a rank t) ++ retire t

end Program

/-! ## State -/

/-- The memory the epilogue uses: the workspace words of each rank, the sequence counter and the
signal pad of each rank, and the output buffers, in units of 16 bytes. -/
structure Mem (world : ℕ) (V : Type*) where
  tpReady : Fin world → ℕ → ℕ
  tpDoneLocal : Fin world → ℕ
  tpDoneFlag : Fin world → ℕ
  tpSeqPub : Fin world → ℕ
  tpSeqctr : Fin world → ℕ
  pads : Fin world → ℕ → ℕ
  out : Fin world → ℕ → V

/-- The registers of a thread: `s`, `tp_seq_eff`, the outcome of the comparison at
`tp_done_local`, and the units `tp_mm_ld` has brought in. -/
structure Regs (V : Type*) where
  seq : ℕ
  seqEff : ℕ
  last : Bool
  x : ℕ → V

/-- Store `v` at index `k` of rank `r`'s array. -/
def write {world : ℕ} {α : Type*} (f : Fin world → ℕ → α) (r : Fin world) (k : ℕ) (v : α) :
    Fin world → ℕ → α :=
  Function.update f r (Function.update (f r) k v)

/-- The cell that is written. -/
@[simp] lemma write_self {world : ℕ} {α : Type*} (f : Fin world → ℕ → α) (r : Fin world)
    (k : ℕ) (v : α) : write f r k v r k = v := by
  simp [write]

/-- A store leaves every other cell alone. -/
lemma write_of_ne {world : ℕ} {α : Type*} {f : Fin world → ℕ → α} {r r' : Fin world} {k k' : ℕ}
    {v : α} (h : ¬ (r' = r ∧ k' = k)) : write f r k v r' k' = f r' k' := by
  unfold write
  by_cases hr : r' = r
  · subst hr
    have hk : k' ≠ k := fun hk => h ⟨rfl, hk⟩
    simp [hk]
  · simp [hr]

/-- `atomicAdd(p, 1u)` on a word that holds `w`. -/
def atomicInc (w : ℕ) : ℕ := (w + 1) % 2 ^ 32

/-- A sequence of fused launches with the arguments all ranks use; launch `n` counts from 1. -/
structure Launches (B : Build) where
  count : ℕ
  args : ℕ → LaunchArgs
  admitted : ∀ n, Admitted B (args n)
  count_lt : count < 2 ^ 32

/-- The sequence of launches with the arguments of a nonempty list. -/
def Launches.ofList {B : Build} (a : LaunchArgs) (l : List LaunchArgs)
    (h : ∀ a' ∈ a :: l, Admitted B a') (hlen : (a :: l).length < 2 ^ 32) : Launches B where
  count := (a :: l).length
  args n := (a :: l).getD (n - 1) a
  admitted n := by
    rw [List.getD_eq_getElem?_getD]
    cases hget : (a :: l)[n - 1]? with
    | none => exact h a List.mem_cons_self
    | some a' => exact h a' (List.mem_of_getElem? hget)
  count_lt := hlen

/-- A configuration of the epilogue on `world` ranks. -/
abbrev EpilogueConfig (B : Build) (world : ℕ) (V : Type*) : Type _ :=
  Config (Fin world) B.Thread (Instr world) (Mem world V) (Regs V)

section Machine

variable {B : Build} {world : ℕ} {V : Type*} [AddCommMonoid V]

/-- A thread takes part in every chunk barrier it meets, and in the exit barrier when its block
arrived last. -/
def Regs.participates (g : Regs V) : RankBarrier → Bool
  | .chunk _ _ => true
  | .exit => g.last

/-- The `cudaMemsetAsync` over the workspace of rank `r`. -/
def Mem.zeroWorkspace (r : Fin world) (m : Mem world V) : Mem world V :=
  { m with
    tpReady := Function.update m.tpReady r fun _ => 0
    tpDoneLocal := Function.update m.tpDoneLocal r 0
    tpDoneFlag := Function.update m.tpDoneFlag r 0
    tpSeqPub := Function.update m.tpSeqPub r 0 }

/-- When a thread gets past its next operation. -/
def passes (L : Launches B) (c : EpilogueConfig B world V) (r : Fin world) (t : B.Thread) :
    Instr world → Prop
  | .syncGrid site => ∀ t', Arrived c r t' (.syncGrid site)
  | .syncThreads s => ∀ t', t'.1 = t.1 → Arrived c r t' (.syncThreads s)
  | .awaitReady ch => (L.args (c.epoch r)).ncomp B ≤ c.mem.tpReady r ch
  | .await b s => (c.reg r t).participates b →
      (c.reg r t).seqEff ≤ c.mem.pads r (padWord world (b.slot (L.args (c.epoch r))) s)
  | .awaitDone => (c.reg r t).last ∨ c.mem.tpDoneFlag r ≠ 0
  | _ => True

/-- What an operation does to the memory and to the registers of its thread. -/
def effect (L : Launches B) (part : ℕ → Fin world → ℕ → V) (c : EpilogueConfig B world V)
    (r : Fin world) (t : B.Thread) (i : Instr world) : Mem world V × Regs V :=
  let m := c.mem
  let g := c.reg r t
  let a := L.args (c.epoch r)
  match i with
  | .bumpSeq =>
    ({ m with tpSeqctr := Function.update m.tpSeqctr r (atomicInc (m.tpSeqctr r)) },
      { g with seq := atomicInc (m.tpSeqctr r) })
  | .publishSeq => ({ m with tpSeqPub := Function.update m.tpSeqPub r g.seq }, g)
  | .loadSeq => (m, { g with seqEff := m.tpSeqPub r })
  | .storeOut _ u =>
    ({ m with out := write m.out r u (part (c.epoch r) r u) }, g)
  | .arriveReady ch =>
    ({ m with tpReady := write m.tpReady r ch (atomicInc (m.tpReady r ch)) }, g)
  | .signal b s =>
    if g.participates b then
      ({ m with pads := write m.pads s (padWord world (b.slot a) r) g.seqEff }, g)
    else (m, g)
  | .ldReduce _ u => (m, { g with x := Function.update g.x u (∑ s, m.out s u) })
  | .stMulticast _ u => ({ m with out := fun s => Function.update (m.out s) u (g.x u) }, g)
  | .arriveDone =>
    ({ m with tpDoneLocal := Function.update m.tpDoneLocal r (atomicInc (m.tpDoneLocal r)) },
      { g with last := m.tpDoneLocal r == a.ncomm - 1 })
  | .setDone =>
    if g.last then ({ m with tpDoneFlag := Function.update m.tpDoneFlag r 1 }, g) else (m, g)
  | .syncGrid _ | .fenceSystem _ | .syncThreads _ | .awaitReady _ | .await _ _ | .fence
  | .awaitDone => (m, g)

/-- The fused epilogue on `world` ranks. -/
def epilogue (L : Launches B) (part : ℕ → Fin world → ℕ → V) :
    Machine (Fin world) B.Thread (Instr world) (Mem world V) (Regs V) where
  epochs := L.count
  prog n r t := if n = 0 then [] else blockProgram (L.args n) r t
  start := Mem.zeroWorkspace
  reg₀ := ⟨0, 0, false, fun _ => 0⟩
  enabled := passes L
  effect := effect L part

end Machine

/-! ## Which thread runs what -/

section Membership

variable {B : Build} {a : LaunchArgs} {world : ℕ} {rank : Fin world} {t : B.Thread}

/-- Thread 0 of its block. -/
def IsLead (t : B.Thread) : Prop := (t.2 : ℕ) = 0

instance : DecidablePred (IsLead (B := B)) := fun _ => inferInstanceAs (Decidable (_ = _))

/-- A thread of a compute block. -/
def Computes (a : LaunchArgs) (t : B.Thread) : Prop := (t.1 : ℕ) < a.ncomp B

instance : DecidablePred (Computes (B := B) a) := fun _ => inferInstanceAs (Decidable (_ < _))

/-- What thread `t` of rank `rank` runs in a launch with arguments `a`. -/
def Runs (a : LaunchArgs) (rank : Fin world) (t : B.Thread) : Instr world → Prop
  | .bumpSeq | .publishSeq => (t.1 : ℕ) = 0 ∧ IsLead t
  | .syncGrid site => site < Build.numBarrierSites
  | .loadSeq => True
  | .storeOut c u => Computes a t ∧ c < a.nchunk ∧ u ∈ a.computeUnits B c t
  | .fenceSystem (.chunkStored c) | .syncThreads (.chunkStored c) => Computes a t ∧ c < a.nchunk
  | .fenceSystem .allReduced | .syncThreads .allReduced | .syncThreads .retired => ¬ Computes a t
  | .fenceSystem (.chunkReady _) | .fenceSystem (.chunkReleased _) | .fenceSystem .retired => False
  | .syncThreads (.chunkReady c) | .syncThreads (.chunkReleased c) =>
    ¬ Computes a t ∧ c < a.nchunk
  | .arriveReady c => Computes a t ∧ IsLead t ∧ c < a.nchunk
  | .awaitReady c => ¬ Computes a t ∧ IsLead t ∧ c < a.nchunk
  | .signal (.chunk c cb) _ | .await (.chunk c cb) _ =>
    ¬ Computes a t ∧ IsLead t ∧ c < a.nchunk ∧ cb = t.1 - a.ncomp B
  | .ldReduce c u | .stMulticast c u =>
    ¬ Computes a t ∧ c < a.nchunk ∧ a.Reduces B world c (a.shardOf rank (t.1 - a.ncomp B)) t.2 u
  | .signal .exit _ | .await .exit _ | .arriveDone | .fence | .setDone | .awaitDone =>
    ¬ Computes a t ∧ IsLead t

/-- What only the leader of a block does. -/
lemma mem_ifLead {l : List (Instr world)} {i : Instr world} :
    i ∈ ifLead t l ↔ IsLead t ∧ i ∈ l := by
  unfold ifLead IsLead
  split_ifs with h <;> simp [h]

/-- A barrier signals all ranks and awaits them. -/
lemma mem_rankBarrier {b : RankBarrier} {i : Instr world} :
    i ∈ rankBarrier b ↔ ∃ r, i = .signal b r ∨ i = .await b r := by
  simp only [rankBarrier, List.mem_append, List.mem_map, List.mem_finRange, true_and,
    exists_or, eq_comm]

/-- A thread loads and multicasts the units of its shard. -/
lemma mem_reduceShard {c : ℕ} {i : Instr world} :
    i ∈ reduceShard a rank t c ↔
      ∃ u, a.Reduces B world c (a.shardOf rank (t.1 - a.ncomp B)) t.2 u ∧
        (i = .ldReduce c u ∨ i = .stMulticast c u) := by
  simp only [reduceShard, List.mem_flatMap, List.mem_append, List.mem_map, Reduces]
  constructor
  · rintro ⟨base, hbase, ⟨u, hu, rfl⟩ | ⟨u, hu, rfl⟩⟩
    · exact ⟨u, ⟨base, hbase, hu⟩, Or.inl rfl⟩
    · exact ⟨u, ⟨base, hbase, hu⟩, Or.inr rfl⟩
  · rintro ⟨u, ⟨base, hbase, hu⟩, rfl | rfl⟩
    · exact ⟨base, hbase, Or.inl ⟨u, hu, rfl⟩⟩
    · exact ⟨base, hbase, Or.inr ⟨u, hu, rfl⟩⟩

/-- `Runs` describes the program. -/
theorem mem_blockProgram {i : Instr world} : i ∈ blockProgram a rank t ↔ Runs a rank t i := by
  have hprologue : i ∈ prologue t ↔
      ((t.1 : ℕ) = 0 ∧ IsLead t ∧ (i = .bumpSeq ∨ i = .publishSeq)) ∨
        (∃ k, k < Build.numBarrierSites ∧ i = .syncGrid k) ∨ i = .loadSeq := by
    unfold prologue IsLead
    split_ifs with h
    · simp [h, eq_comm, or_assoc]
    · have h' : ¬ ((t.1 : ℕ) = 0 ∧ (t.2 : ℕ) = 0 ∧ (i = .bumpSeq ∨ i = .publishSeq)) :=
        fun h' => h ⟨h'.1, h'.2.1⟩
      simp [h', eq_comm]
  unfold blockProgram
  rw [List.mem_append, hprologue]
  by_cases hcomp : (t.1 : ℕ) < a.ncomp B
  · have hc : Computes a t := hcomp
    rw [if_pos hcomp]
    simp only [List.mem_flatMap, List.mem_range, computeChunk, List.mem_append, List.mem_map,
      List.mem_cons, List.not_mem_nil, or_false, mem_ifLead]
    rcases i with _ | _ | _ | _ | _ | s | s | _ | _ | b | b | _ | _ | _ | _ | _ | _ <;>
      first
        | (cases s <;> simp [Runs, hc])
        | (cases b <;> simp [Runs, hc])
        | simp [Runs, hc, and_comm, and_left_comm]
  · have hc : ¬ Computes a t := hcomp
    rw [if_neg hcomp]
    simp only [List.mem_append, List.mem_flatMap, List.mem_range, commChunk, retire, mem_ifLead,
      mem_rankBarrier, mem_reduceShard, List.mem_cons, List.not_mem_nil, or_false]
    rcases i with _ | _ | _ | _ | _ | s | s | _ | _ | b | b | _ | _ | _ | _ | _ | _ <;>
      first
        | (cases s <;> simp [Runs, hc])
        | (cases b <;> simp [Runs, hc, and_comm, and_left_comm])
        | simp [Runs, hc, and_comm, and_left_comm]

end Membership

/-! ## The order of a program -/

section Stage

variable {B : Build} {a : LaunchArgs} {world : ℕ} {rank : Fin world} {t : B.Thread}

/-- The first stage after the last chunk. -/
def finalStage (B : Build) : ℕ := 10 + 10 * B.tpMaxC

/-- The stage of a `__syncthreads`. -/
def siteStage (B : Build) : Site → ℕ
  | .chunkStored c => 10 + 10 * c + 2
  | .chunkReady c => 10 + 10 * c + 5
  | .chunkReleased c => 10 + 10 * c + 8
  | .allReduced => finalStage B + 1
  | .retired => finalStage B + 8

/-- A stage for every operation, the same in all launches, such that what an operation waits for
has a smaller stage. -/
def stage (B : Build) : Instr world → ℕ
  | .bumpSeq => 0
  | .publishSeq => 1
  | .syncGrid site => 2 + site
  | .loadSeq => 6
  | .storeOut c _ => 10 + 10 * c
  | .fenceSystem s => siteStage B s - 1
  | .syncThreads s => siteStage B s
  | .arriveReady c => 10 + 10 * c + 3
  | .awaitReady c => 10 + 10 * c + 4
  | .signal (.chunk c _) _ => 10 + 10 * c + 6
  | .await (.chunk c _) _ => 10 + 10 * c + 7
  | .ldReduce c _ | .stMulticast c _ => 10 + 10 * c + 9
  | .arriveDone => finalStage B + 2
  | .signal .exit _ => finalStage B + 3
  | .await .exit _ => finalStage B + 4
  | .fence => finalStage B + 5
  | .setDone => finalStage B + 6
  | .awaitDone => finalStage B + 7

/-- What a leader does is in order if it is for all. -/
lemma piece_ifLead {l : List (Instr world)} {lo hi : ℕ} (h : Piece (stage B) lo hi l) :
    Piece (stage B) lo hi (ifLead t l) :=
  h.ite

/-- A barrier signals before it awaits. -/
lemma piece_rankBarrier {b : RankBarrier} {lo : ℕ}
    (hsignal : ∀ r : Fin world, stage B (.signal b r) = lo)
    (hawait : ∀ r : Fin world, stage B (.await b r) = lo + 1) :
    Piece (stage B) lo (lo + 2) (rankBarrier b : List (Instr world)) := by
  refine Piece.append (lo + 1) (Piece.of_const ?_ ?_ (by omega))
    (Piece.of_const ?_ ?_ (by omega)) (by omega) (by omega)
  · exact (List.nodup_finRange world).map fun r r' heq => by injection heq
  · simpa using hsignal
  · exact (List.nodup_finRange world).map fun r r' heq => by injection heq
  · simpa using hawait

/-- The prologue goes through its stages in order. -/
lemma piece_prologue : Piece (stage B) 0 10 (prologue t : List (Instr world)) := by
  have hpublish : Piece (stage B) 0 2 [(.bumpSeq : Instr world), .publishSeq] :=
    Piece.cons 1 le_rfl (by simp [stage]) (Piece.singleton le_rfl (by simp [stage])) (by omega)
  have hsync : Piece (stage B) 2 6
      ((List.range Build.numBarrierSites).map (Instr.syncGrid : ℕ → Instr world)) := by
    refine ⟨?_, ?_, ?_, ?_⟩
    · refine List.pairwise_map.mpr (List.Pairwise.imp ?_ (List.pairwise_lt_range))
      intro k k' hlt
      simp only [stage]
      omega
    · exact List.nodup_range.map fun k k' heq => by injection heq
    · simp [stage]
    · simp only [List.mem_map, List.mem_range, Build.numBarrierSites]
      rintro _ ⟨k, hk, rfl⟩
      simp only [stage]
      omega
  have hload : Piece (stage B) 6 10 [(.loadSeq : Instr world)] :=
    Piece.singleton le_rfl (by simp [stage])
  exact hpublish.ite.append 2 (hsync.append 6 hload (by omega) (by omega)) (by omega) (by omega)

/-- So does a chunk of a compute block. -/
lemma piece_computeChunk (h : Admitted B a) (c : ℕ) :
    Piece (stage B) (10 + 10 * c) (10 + 10 * (c + 1))
      (computeChunk a t c : List (Instr world)) := by
  have hstores : Piece (stage B) (10 + 10 * c) (10 + 10 * c + 1)
      ((a.computeUnits B c t).map (Instr.storeOut c) : List (Instr world)) := by
    refine Piece.of_const ?_ ?_ (by omega)
    · exact (nodup_computeUnits h c t).map fun u u' heq => by injection heq
    · simp [stage]
  have harrive : Piece (stage B) (10 + 10 * c + 3) (10 + 10 * (c + 1))
      (ifLead t [(.arriveReady c : Instr world)]) :=
    piece_ifLead (Piece.singleton le_rfl (by simp only [stage]; omega))
  refine hstores.append _ (Piece.cons (10 + 10 * c + 2) ?_ ?_
    (Piece.cons (10 + 10 * c + 3) ?_ ?_ harrive (by omega)) (by omega)) (by omega) (by omega) <;>
    simp [stage, siteStage]

/-- A pass reduces no unit twice. -/
lemma nodup_reducePass (sh base c : ℕ) :
    ((a.reducePass B world c sh base).map (Instr.ldReduce c) ++
      (a.reducePass B world c sh base).map (Instr.stMulticast c) : List (Instr world)).Nodup := by
  have hpass : (a.reducePass B world c sh base).Nodup :=
    nodup_unrolledPass _ _ _ B.blockSize_pos
  refine List.nodup_append.mpr ⟨hpass.map fun u u' heq => by injection heq,
    hpass.map fun u u' heq => by injection heq, ?_⟩
  intro i hi j hj heq
  obtain ⟨u, _, rfl⟩ := List.mem_map.mp hi
  obtain ⟨v, _, rfl⟩ := List.mem_map.mp hj
  exact absurd heq (by simp)

/-- A pass touches the units it is made for. -/
lemma exists_unit_of_mem_pass {l : List ℕ} {c : ℕ} {i : Instr world}
    (hi : i ∈ l.map (Instr.ldReduce c) ++ l.map (Instr.stMulticast c)) :
    ∃ u ∈ l, i = .ldReduce c u ∨ i = .stMulticast c u := by
  rcases List.mem_append.mp hi with h | h
  · obtain ⟨u, hu, rfl⟩ := List.mem_map.mp h
    exact ⟨u, hu, Or.inl rfl⟩
  · obtain ⟨u, hu, rfl⟩ := List.mem_map.mp h
    exact ⟨u, hu, Or.inr rfl⟩

/-- The reduction of a chunk is its last stage. -/
lemma piece_reduceShard (c : ℕ) :
    Piece (stage B) (10 + 10 * c + 9) (10 + 10 * (c + 1)) (reduceShard a rank t c) := by
  have htid : (t.2 : ℕ) < B.blockSize := t.2.isLt
  have hunroll : 0 < Build.tpUnroll := by norm_num [Build.tpUnroll]
  refine Piece.of_const ?_ ?_ (by omega)
  · refine List.nodup_flatMap.mpr ⟨fun base _ => nodup_reducePass _ base c, ?_⟩
    refine List.Pairwise.imp_of_mem ?_ (nodup_strided (Nat.mul_pos hunroll B.blockSize_pos))
    intro base base' hbase hbase' hne i hi hi'
    obtain ⟨u, hu, hiu⟩ := exists_unit_of_mem_pass hi
    obtain ⟨u', hu', hiu'⟩ := exists_unit_of_mem_pass hi'
    have huu : u = u' := by
      rcases hiu with rfl | rfl <;> rcases hiu' with heq | heq <;> simp_all
    subst huu
    exact hne (unrolledBases_injOn htid hunroll hbase hbase' hu hu')
  · intro i hi
    obtain ⟨u, _, rfl | rfl⟩ := mem_reduceShard.mp hi <;> simp [stage]

/-- A chunk of a communication block goes through its stages in order. -/
lemma piece_commChunk (c : ℕ) :
    Piece (stage B) (10 + 10 * c) (10 + 10 * (c + 1)) (commChunk a rank t c) := by
  have hready : Piece (stage B) (10 + 10 * c) (10 + 10 * c + 5)
      (ifLead t [(.awaitReady c : Instr world)]) :=
    piece_ifLead (Piece.singleton (by simp only [stage]; omega) (by simp [stage]))
  have hbarrier : Piece (stage B) (10 + 10 * c + 6) (10 + 10 * c + 8)
      (ifLead t (rankBarrier (.chunk c (t.1 - a.ncomp B))) : List (Instr world)) :=
    piece_ifLead (piece_rankBarrier (fun _ => rfl) fun _ => rfl)
  have hreduce : Piece (stage B) (10 + 10 * c + 8) (10 + 10 * (c + 1))
      (.syncThreads (.chunkReleased c) :: reduceShard a rank t c) :=
    Piece.cons _ le_rfl (by simp [stage, siteStage]) (piece_reduceShard c) (by omega)
  unfold commChunk
  rw [List.singleton_append, List.singleton_append]
  exact hready.append _ (Piece.cons _ le_rfl (by simp [stage, siteStage])
    (hbarrier.append _ hreduce (by omega) (by omega)) (by omega)) (by omega) (by omega)

/-- So does the end of a launch. -/
lemma piece_retire :
    Piece (stage B) (finalStage B) (finalStage B + 10) (retire t : List (Instr world)) := by
  have hflag : Piece (stage B) (finalStage B + 5) (finalStage B + 8)
      [(.fence : Instr world), .setDone, .awaitDone] := by
    refine Piece.cons (finalStage B + 6) ?_ ?_ (Piece.cons (finalStage B + 7) ?_ ?_
      (Piece.singleton ?_ ?_) (by omega)) (by omega) <;> simp [stage]
  have hexit : Piece (stage B) (finalStage B + 3) (finalStage B + 5)
      (rankBarrier .exit : List (Instr world)) :=
    piece_rankBarrier (fun _ => rfl) fun _ => rfl
  have hlead : Piece (stage B) (finalStage B + 2) (finalStage B + 8)
      (ifLead t ([.arriveDone] ++ (rankBarrier .exit ++ [.fence, .setDone, .awaitDone])) :
        List (Instr world)) :=
    piece_ifLead (Piece.cons _ le_rfl (by simp [stage])
      (hexit.append _ hflag (by omega) (by omega)) (by omega))
  have hretired : Piece (stage B) (finalStage B + 8) (finalStage B + 10)
      [(.syncThreads .retired : Instr world)] :=
    Piece.singleton le_rfl (by simp [stage, siteStage])
  have hend := hlead.append _ hretired (by omega) (by omega)
  refine Piece.cons (finalStage B + 1) ?_ ?_ (Piece.cons (finalStage B + 2) ?_ ?_ hend
    (by omega)) (by omega) <;> simp [stage, siteStage]

/-- The stage never decreases along a program and no operation occurs twice in it. -/
theorem piece_blockProgram (h : Admitted B a) :
    Piece (stage B) 0 (finalStage B + 10) (blockProgram a rank t) := by
  have hchunks : 10 + 10 * a.nchunk ≤ finalStage B := by
    have := h.nchunk_le
    unfold finalStage
    omega
  refine Piece.append 10 piece_prologue ?_ (by omega) (by unfold finalStage; omega)
  split_ifs with hcomp
  · exact (Piece.flatMap_range fun c _ => piece_computeChunk h c).mono le_rfl (by omega)
  · exact ((Piece.flatMap_range fun c _ => piece_commChunk c).mono le_rfl hchunks).append _
      piece_retire (by unfold finalStage; omega) (by omega)

/-- The programs of the epilogue are ordered by `stage`. -/
theorem epilogue_staged {V : Type*} [AddCommMonoid V] (L : Launches B)
    (part : ℕ → Fin world → ℕ → V) : (epilogue L part).Staged (stage B) where
  prog_zero r t := rfl
  sorted n r t := by
    simp only [epilogue]
    split_ifs
    · exact List.Pairwise.nil
    · exact (piece_blockProgram (L.admitted n)).sorted
  nodup n r t := by
    simp only [epilogue]
    split_ifs
    · exact List.nodup_nil
    · exact (piece_blockProgram (L.admitted n)).nodup

end Stage

end UnimonoMoe
