import UnimonoMoe.Kernel.GridBarrier
import UnimonoMoe.Lib.Traces

/-!
# The phases of a launch, one after another

`sync_grid` separates the phases of a launch; here is what this means for the data.  Blocks drift,
so while one block is still in its spin loop another may long be at work on the next phase, and what
the threads execute is a mixture of memory operations of two phases and operations of the barrier.
Yet the memory operations alone come phase after phase, since the machine keeps them apart in the
sense of `Traces` (`syncGrid_separates`).  So, whatever the phases do, what a run of the grid leaves
is what the phases leave when they run one after another, each in some interleaving of all threads
(`sync_grid_sequential`).
-/

namespace UnimonoMoe

open Epochs Interleaving

section Sequential

variable {G : BarrierGrid} {δ : Type*} {w : Phases G δ} {m₀ : BarrierMem δ}
  {c : BarrierConfig G δ} {B : Build}

/-- The number of a memory operation in its phase. -/
def BarrierOp.workIndex : BarrierOp → Option ℕ
  | .work k => some k
  | _ => none

/-- What a memory operation of a thread does to the data in phase `n`. -/
def Phases.apply (w : Phases G δ) (n : ℕ) (d : δ)
    (x : (Fin G.gridSize × Fin G.blockSize) × ℕ) : δ :=
  w.act n x.1.1 x.1.2 x.2 d

/-- What an operation of the grid does to the data. -/
def Phases.execute (w : Phases G δ) (d : δ)
    (e : ℕ × (Fin G.gridSize × Fin G.blockSize) × BarrierOp) : δ :=
  match e.2.2.workIndex with
  | some k => w.apply e.1 d (e.2.1, k)
  | none => d

/-- The phases `1`, ..., `phases` run from `d₀` to `d` one after another, each in some interleaving
of the threads of the grid. -/
def Phases.RunsTo (w : Phases G δ) (phases : ℕ) (d₀ d : δ) : Prop :=
  ∃ runs : ℕ → List ((Fin G.gridSize × Fin G.blockSize) × ℕ),
    (∀ n, 0 < n → n ≤ phases →
      Interleaves (fun p => List.range (w.count n p.1 p.2)) (runs n)) ∧
    d = (List.range phases).foldl (fun d k => (runs (k + 1)).foldl (w.apply (k + 1)) d) d₀

/-- The memory operations in the program of a thread. -/
lemma filterMap_workIndex {word : ℕ → ℕ} {calls phases n : ℕ} (hn : 0 < n) (b : Fin G.gridSize)
    (t : Fin G.blockSize) : ((barrierRun G word calls phases w).prog n b t).filterMap
      BarrierOp.workIndex = List.range (w.count n b t) := by
  have hbarrier : (gridBarrier b t).filterMap BarrierOp.workIndex = [] := by
    unfold gridBarrier
    split_ifs <;> rfl
  have hwork : ∀ l : List ℕ, (l.map BarrierOp.work).filterMap BarrierOp.workIndex = l := fun l => by
    rw [List.filterMap_map]
    exact List.filterMap_some
  simp only [barrierRun, if_neg hn.ne', List.filterMap_append, hwork]
  split_ifs
  · rw [hbarrier, List.append_nil]
  · exact List.append_nil _

/-- The data is what the operations executed so far have made of it. -/
lemma data_eq_foldl {word : ℕ → ℕ} {calls phases : ℕ}
    {tr : List (ℕ × (Fin G.gridSize × Fin G.blockSize) × BarrierOp)}
    (h : (barrierRun G word calls phases w).Traced m₀ tr c) :
    c.mem.data = tr.foldl w.execute m₀.data := by
  induction h with
  | init => rfl
  | @fire tr c b t i l _ _ _ ih =>
    rw [List.foldl_append, ← ih]
    cases i with
    | foldBack =>
      simp only [fire_mem, barrierRun, barrierEffect]
      split_ifs <;> rfl
    | _ => rfl
  | launch _ _ _ ih => exact ih

/-- The memory operations of the grid are kept apart by the calls of `grid_barrier`. -/
lemma syncGrid_separates (hN : 2 ≤ G.gridSize) (hzero : ZeroWorkspace B m₀) :
    (syncGridRun G w).Separates m₀ fun i => i.workIndex.isSome := by
  intro c b t i h hhead _ n hn b' t' j hj hmem
  refine ⟨hmem, ?_⟩
  obtain ⟨k, rfl⟩ : ∃ k, j = .work k := by
    cases j with
    | work k => exact ⟨k, rfl⟩
    | _ => exact absurd hj (by decide)
  -- the thread is out of the spin loop of call `n`, so the other block has arrived there
  have hpos : 0 < n := ((mem_barrierProg hN).mp hmem).1
  have hle : c.epoch b ≤ syncGridCalls.length + 1 := h.epoch_le b
  have hcalls : n ≤ syncGridCalls.length := by omega
  have harrived := arrivedAt_of_leaves hN (freshCounters_siteWord _ _)
    (zeroCounters_of_zeroWorkspace hzero) h hpos hcalls (by omega) (Or.inl hn : Leaves c n b t) b'
  exact done_work_of_arrivedAt hN h hpos hcalls harrived t' k

/-- Every run of the grid comes to a point from which on all blocks are through. -/
theorem syncGrid_finishes (hN : 2 ≤ G.gridSize) (hzero : ZeroWorkspace B m₀)
    {run : ℕ → BarrierConfig G δ} (hrun : (syncGridRun G w).MaximalRun m₀ run) :
    ∃ K, ∀ k, K ≤ k → ∀ b, ¬ (syncGridRun G w).Unfinished (run k) b := by
  obtain ⟨K, hK⟩ := hrun.exists_stuck
  refine ⟨K, fun k hk b hb => ?_⟩
  obtain ⟨c', hstep⟩ := barrier_exists_step hN (freshCounters_siteWord _ _)
    (zeroCounters_of_zeroWorkspace hzero) (hrun.reachable k) ⟨b, hb⟩
  exact hK k hk c' hstep

/-- What a finished run leaves is what the phases leave one after another. -/
theorem runsTo_of_finished (hN : 2 ≤ G.gridSize) (hzero : ZeroWorkspace B m₀)
    (h : (syncGridRun G w).Reachable m₀ c)
    (hfin : ∀ b, ¬ (syncGridRun G w).Unfinished c b) :
    w.RunsTo (syncGridCalls.length + 1) m₀.data c.mem.data := by
  obtain ⟨tr, htr⟩ := h.exists_traced
  have hparts := fun n (hn : n ≤ syncGridCalls.length + 1) =>
    htr.interleaves barrierRun_staged hfin hn
  refine ⟨fun n => (phaseOf n tr).filterMap fun p => p.2.workIndex.map (p.1, ·),
    fun n hpos hn => ?_, ?_⟩
  · have hworks := (hparts n hn).filterMap fun _ => BarrierOp.workIndex
    intro p
    rw [hworks p]
    exact filterMap_workIndex hpos p.1 p.2
  -- only memory operations change the data, and they come phase by phase
  have hskip : tr.foldl w.execute m₀.data =
      (tr.filter fun e => e.2.2.workIndex.isSome).foldl w.execute m₀.data := by
    rw [List.foldl_filter]
    refine List.foldl_ext _ _ _ fun d e _ => ?_
    unfold Phases.execute
    cases e.2.2.workIndex <;> rfl
  have hphase : ∀ n d, ((phaseOf n (tr.filter fun e => e.2.2.workIndex.isSome)).map (n, ·)).foldl
      w.execute d = ((phaseOf n tr).filterMap fun p => p.2.workIndex.map (p.1, ·)).foldl
        (w.apply n) d := by
    intro n d
    have hcomm : phaseOf n (tr.filter fun e => e.2.2.workIndex.isSome) =
        (phaseOf n tr).filter fun p => p.2.workIndex.isSome := by
      unfold phaseOf
      rw [List.filter_map, List.filter_filter, List.filter_filter]
      refine congrArg _ (List.filter_congr fun e _ => ?_)
      exact Bool.and_comm _ _
    rw [hcomm, List.foldl_map, List.foldl_filter, List.foldl_filterMap]
    refine List.foldl_ext _ _ _ fun d p _ => ?_
    unfold Phases.execute
    cases p.2.workIndex <;> rfl
  have hzeroth : phaseOf 0 tr = [] := by
    refine List.eq_nil_iff_forall_not_mem.mpr fun p hp => ?_
    have hmem := (hparts 0 (Nat.zero_le _)).mem_iff.mp hp
    rw [barrierRun_staged.prog_zero] at hmem
    cases hmem
  have hsplit := htr.eq_flatMap (syncGrid_separates hN hzero)
  simp only [Bool.decide_eq_true] at hsplit
  rw [data_eq_foldl htr, hskip, hsplit, List.foldl_flatMap]
  simp only [hphase]
  rw [show (syncGridRun G w).epochs + 1 = syncGridCalls.length + 1 + 1 from rfl,
    List.range_succ_eq_map, List.foldl_cons, hzeroth, List.foldl_map]
  rfl

/-- The software grid barrier makes a launch sequential.  On a grid of at least two blocks, whatever
the phases do, and whatever the interleaving of their operations with those of the barrier, every
run comes to a point from which on all blocks are through, and what it leaves is what the phases
leave when they run one after another, each in some interleaving of the threads of the grid. -/
theorem sync_grid_sequential (B : Build) (hN : 2 ≤ G.gridSize) (hzero : ZeroWorkspace B m₀)
    {run : ℕ → BarrierConfig G δ} (hrun : (syncGridRun G w).MaximalRun m₀ run) :
    ∃ K, ∀ k, K ≤ k → (∀ b, ¬ (syncGridRun G w).Unfinished (run k) b) ∧
      w.RunsTo (syncGridCalls.length + 1) m₀.data (run k).mem.data := by
  obtain ⟨K, hK⟩ := syncGrid_finishes hN hzero hrun
  exact ⟨K, fun k hk => ⟨hK k hk, runsTo_of_finished hN hzero (hrun.reachable k) (hK k hk)⟩⟩

/-- Two blocks that add the number of the phase to a word, once in each phase. -/
def addPhase : Phases twoBlocks ℕ where
  count _ _ _ := 1
  act n _ _ _ d := d + n

/-- The two blocks from a zeroed workspace. -/
theorem sync_grid_sequential_addPhase :
    ∃ run, (syncGridRun twoBlocks addPhase).MaximalRun ⟨fun _ => 0#32, 7⟩ run ∧
      ∃ K, ∀ k, K ≤ k → (∀ b, ¬ (syncGridRun twoBlocks addPhase).Unfinished (run k) b) ∧
        addPhase.RunsTo (syncGridCalls.length + 1) 7 (run k).mem.data :=
  let ⟨run, hrun⟩ := Machine.exists_maximalRun (syncGridRun twoBlocks addPhase) ⟨fun _ => 0#32, 7⟩
  ⟨run, hrun, sync_grid_sequential deepseekTP (by decide) (fun _ _ => rfl) hrun⟩

end Sequential

end UnimonoMoe
