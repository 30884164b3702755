import UnimonoMoe.Kernel.OperandPipelines
import Mathlib.Data.Set.Finite.Lattice

/-!
# Progress of the tile loop

The tile loop holds its threads up in four ways: at a barrier, at the wait for a staging, at the
wait for a weight tile and at the wait for a product.  A load may come in as late as it likes, but
it is never the loop that keeps it from coming in.  Once all loads that have been issued are there,
a thread with the least `place` ahead of it can go on: what it waits for lies at smaller places of
other threads (`exists_smaller_of_blocked`).  So a configuration without a step is one in which the
block is through, and since the operations and the loads are finitely many, every maximal run gets
there (`operand_pipelines_finish`).
-/

namespace UnimonoMoe

open Epochs

instance : Fintype Party := ⟨{.block, .engine}, fun p => by cases p <;> decide⟩

variable {B : RingBuild} {rows : ℕ → ℕ} {tiles : ℕ} {m₀ : RingMem} {c c' : RingConfig}
  {n lin k : ℕ} {t : Tid} {i : RingOp} {l : Load}

/-! ## The places of the barriers -/

section Places

/-- The step and the offset in a step of a place in the loop. -/
lemma offset_eq_of_base {lin' d d' : ℕ} (hd : d < 2 * B.mSubs + 8) (hd' : d' < 2 * B.mSubs + 8)
    (heq : B.base lin + d = B.base lin' + d') : d = d' := by
  rcases Nat.lt_trichotomy lin lin' with hlt | rfl | hlt
  · have := base_add_le (B := B) hlt
    omega
  · omega
  · have := base_add_le (B := B) hlt
    omega

/-- A barrier lies before the first load, or at one of three offsets of a step. -/
lemma place_of_sync (hruns : B.Runs n t (.sync k)) : (k = 1 ∨ k = 2) ∨ ∃ lin d, k = B.base lin + d ∧
    (d = 1 ∨ d = 5 + 2 * B.mSubs ∨ d = 6 + 2 * B.mSubs) := by
  simp only [RingBuild.Runs] at hruns
  split_ifs at hruns
  · rcases hruns with hk | ⟨lin, -, rfl | ⟨-, rfl | rfl⟩⟩ | rfl
    · exact Or.inl hk
    · exact Or.inr ⟨lin, 1, rfl, Or.inl rfl⟩
    · exact Or.inr ⟨lin, 5 + 2 * B.mSubs, by omega, Or.inr (Or.inl rfl)⟩
    · exact Or.inr ⟨lin, 6 + 2 * B.mSubs, by omega, Or.inr (Or.inr rfl)⟩
    · exact Or.inr ⟨B.wgTiles, 1, rfl, Or.inl rfl⟩
  · exact Or.inl (Or.inl hruns)

/-- The other operations lie elsewhere. -/
lemma place_of_ne_sync (hruns : B.Runs n t i) (hne : ∀ k, i ≠ .sync k) : B.place i = 0 ∨
    (3 ≤ B.place i ∧ B.place i < B.base 0) ∨ ∃ lin d, B.place i = B.base lin + d ∧
      d < 2 * B.mSubs + 8 ∧ d ≠ 1 ∧ d ≠ 5 + 2 * B.mSubs ∧ d ≠ 6 + 2 * B.mSubs := by
  have hfirst := le_base (B := B) 0
  cases i with
  | mbarrierInit => exact Or.inl rfl
  | sync k => exact absurd rfl (hne k)
  | stageA g =>
    simp only [RingBuild.place]
    split_ifs with hg
    · exact Or.inr (Or.inl ⟨by omega, by omega⟩)
    · exact Or.inr (Or.inr ⟨_, 2, rfl, by omega, by omega, by omega, by omega⟩)
  | cpaWait lin => exact Or.inr (Or.inr ⟨lin, 0, rfl, by omega, by omega, by omega, by omega⟩)
  | cpaDrain => exact Or.inr (Or.inr ⟨_, 0, rfl, by omega, by omega, by omega, by omega⟩)
  | mbarrierWait lin =>
    exact Or.inr (Or.inr ⟨lin, 3, rfl, by omega, by omega, by omega, by omega⟩)
  | wgmma lin sb =>
    have hsb : sb < B.mSubs := hruns.2
    refine Or.inr (Or.inr ⟨lin, 4 + 2 * sb, ?_, by omega, by omega, by omega, by omega⟩)
    simp only [RingBuild.place]
    omega
  | wgmmaWait lin sb =>
    have hsb : sb < B.mSubs := hruns.2
    refine Or.inr (Or.inr ⟨lin, 5 + 2 * sb, ?_, by omega, by omega, by omega, by omega⟩)
    simp only [RingBuild.place]
    omega
  | armTile depth lin =>
    obtain ⟨-, rfl, -⟩ := hruns
    have hdepth := depth_le (B := B) n
    simp only [RingBuild.place]
    split_ifs with hlin
    · exact Or.inr (Or.inl ⟨by omega, by omega⟩)
    · exact Or.inr (Or.inr ⟨lin - B.depth n, 4 + 2 * B.mSubs, by omega, by omega, by omega,
        by omega, by omega⟩)
  | land l => exact absurd hruns not_false

/-- A barrier is alone at its place. -/
lemma eq_sync_of_place (hk : B.Runs n t (.sync k)) (hi : B.Runs n t i)
    (hplace : B.place i = B.place (.sync k)) : i = .sync k := by
  have hzero := le_base (B := B) 0
  by_cases hsync : ∃ k', i = .sync k'
  · obtain ⟨k', rfl⟩ := hsync
    exact congrArg RingOp.sync hplace
  · exfalso
    have hplace : B.place i = k := hplace
    have hbase : ∀ lin, B.base 0 ≤ B.base lin := fun lin => by
      unfold RingBuild.base
      omega
    rcases place_of_sync hk with hk | ⟨lin, d, rfl, hd⟩ <;>
      rcases place_of_ne_sync hi (not_exists.mp hsync) with hi | hi | ⟨lin', d', heq, hd', hne⟩
    · omega
    · omega
    · have := hbase lin'
      omega
    · have := hbase lin
      omega
    · have := hbase lin
      omega
    · have := offset_eq_of_base (by omega) hd' (hplace.symm.trans heq)
      omega

end Places

/-! ## No configuration is stuck before the end -/

section Progress

variable (h : (ringMachine B rows tiles).Reachable m₀ c)

/-- Only a block with tiles issues loads. -/
lemma tiles_pos_of_issued (h : (ringMachine B rows tiles).Reachable m₀ c)
    (hissued : Issued B rows c l) : 0 < tiles := by
  have hle : c.epoch .block ≤ 2 * tiles := h.epoch_le .block
  have hepoch := hissued.epoch_le
  have hpos : 0 < l.epoch := by
    cases l with
    | a n t g it => exact hissued.1.runs.1
    | b n w lin byte => exact hissued.1.runs.1
  omega

include h in
/-- In a configuration without a step every load that has been issued has come in. -/
lemma landed_of_stuck (hstuck : ∀ c', ¬ (ringMachine B rows tiles).Step c c')
    (hissued : Issued B rows c l) : Landed c l := by
  have hsuffix : ∀ x, c.rest .engine x <:+ (ringMachine B rows tiles).prog (c.epoch .engine)
      .engine x := h.rest_suffix .engine
  rcases Nat.lt_trichotomy (c.epoch .engine) 1 with hepoch | hepoch | hepoch
  · -- the engine can start
    have hpos := tiles_pos_of_issued h hissued
    refine absurd (Machine.Step.launch (M := ringMachine B rows tiles) (c := c) (r := .engine)
      (show c.epoch .engine < 2 * tiles by omega) fun x => List.suffix_nil.mp ?_) (hstuck _)
    have hempty : (ringMachine B rows tiles).prog (c.epoch .engine) .engine x = [] := by
      rw [Nat.lt_one_iff.mp hepoch]
      cases x <;> rfl
    exact hempty ▸ hsuffix x
  · -- the load can come in
    by_contra hmissing
    have hmem : RingOp.land l ∈ c.rest .engine (.copy l) := by
      by_contra hnot
      exact hmissing (Or.inr ⟨hepoch.symm, hnot⟩)
    have hprog : (ringMachine B rows tiles).prog (c.epoch .engine) .engine (.copy l) =
        [.land l] := by
      rw [hepoch]
      rfl
    have hrest : c.rest .engine (.copy l) = [.land l] := by
      have hsub := hprog ▸ hsuffix (.copy l)
      exact (hsub.sublist.eq_of_length_le (List.length_pos_of_mem hmem))
    exact hstuck _ (Machine.Step.fire hrest hissued)
  · exact Or.inl hepoch

include h in
/-- Once all loads have come in, what a thread waits for lies at a smaller place of another. -/
lemma exists_smaller_of_blocked (hlanded : ∀ l, Issued B rows c l → Landed c l) {x : Worker}
    (hhead : c.Head .block x i) (hblocked : ¬ ringEnabled B rows c .block x i) :
    ∃ x' i', c.Head .block x' i' ∧ B.place i' < B.place i := by
  obtain ⟨t, rfl⟩ := block_head h hhead
  have hM := ringMachine_staged (B := B) rows tiles
  obtain ⟨hpos, hruns⟩ := Head.runs h hhead
  -- an operation that is still ahead of a thread has a head before it
  have hahead : ∀ {u : Tid} {j : RingOp}, j ∈ c.rest .block (.thread u) → B.place j < B.place i →
      ∃ x' i', c.Head .block x' i' ∧ B.place i' < B.place i := by
    intro u j hj hlt
    obtain ⟨i', l', hrest, hle⟩ := h.exists_head hM hj
    exact ⟨_, i', ⟨l', hrest⟩, hle.trans_lt hlt⟩
  have hwait : ∀ pending, WaitGroup B rows c t pending := fun _ _ _ _ hissued => hlanded _ hissued
  cases i with
  | sync k =>
    obtain ⟨u, hnot⟩ := not_forall.mp hblocked
    obtain ⟨i', l', hrest, hlt⟩ := h.exists_head_of_not_arrived hM hnot fun j hj hplace =>
      eq_sync_of_place (t := u) hruns (mem_program.mp hj).2 hplace
    exact ⟨_, i', ⟨l', hrest⟩, hlt⟩
  | cpaWait lin => exact absurd (hwait _) hblocked
  | cpaDrain => exact absurd (hwait _) hblocked
  | mbarrierWait lin =>
    have hnot : ¬ Armed B c (c.epoch .block) t.wg lin := fun harmed => hblocked <|
      ((ringInv h).tryWaitParity_iff h (parityInv h) hhead).mpr
        ⟨harmed, fun byte hbyte => hlanded _ ⟨harmed, hbyte⟩⟩
    have harm := mem_program.mpr ⟨hpos, runs_armTile (w := t.wg) hruns⟩
    refine hahead (u := wgLeader t.wg) (not_not.mp fun hnotin => hnot ⟨harm, Or.inr ⟨rfl, hnotin⟩⟩)
      (place_armTile_lt_base.trans_le ?_)
    exact Nat.le_add_right _ _
  | wgmmaWait lin sb =>
    obtain ⟨u, hu⟩ := not_forall.mp hblocked
    obtain ⟨-, hmem⟩ := Classical.not_imp.mp hu
    refine hahead (not_not.mp hmem) ?_
    simp only [RingBuild.place]
    omega
  | _ => exact absurd trivial hblocked

include h in
/-- A configuration without a step is one in which the block is through. -/
theorem through_of_stuck (hstuck : ∀ c', ¬ (ringMachine B rows tiles).Step c c') :
    c.epoch .block = 2 * tiles ∧ ∀ t, c.rest .block (.thread t) = [] := by
  have hidle : ∀ x, c.rest .block x = [] := by
    by_contra hbusy
    have hblock : ∀ x i, c.Head .block x i → ¬ ringEnabled B rows c .block x i →
        ∃ x' i', c.Head .block x' i' ∧ B.place i' < B.place i := fun x i =>
      exists_smaller_of_blocked h fun _ => landed_of_stuck h hstuck
    obtain ⟨x, i, ⟨l, hrest⟩, henabled⟩ := Config.exists_enabled_of_agent
      (M := ringMachine B rows tiles) .block hblock (not_forall.mp hbusy)
    exact hstuck _ (Machine.Step.fire hrest henabled)
  refine ⟨le_antisymm (h.epoch_le .block) (Nat.not_lt.mp fun hmore => ?_), fun t => hidle _⟩
  exact hstuck _ (Machine.Step.launch hmore hidle)

end Progress

/-! ## Maximal runs -/

section Runs

/-- The loads of the tile loop. -/
def allLoads (B : RingBuild) (tiles : ℕ) : Set Load :=
  (fun p : ℕ × Tid × ℕ × ℕ => Load.a p.1 p.2.1 p.2.2.1 p.2.2.2) ''
      (Set.Iic (2 * tiles) ×ˢ Set.univ ×ˢ Set.Iio (B.wgTiles + B.aStages) ×ˢ Set.Iio B.aIters) ∪
    (fun p : ℕ × Fin 2 × ℕ × ℕ => Load.b p.1 p.2.1 p.2.2.1 p.2.2.2) ''
      (Set.Iic (2 * tiles) ×ˢ Set.univ ×ˢ Set.Iio (B.wgTiles + B.wgTotal) ×ˢ Set.Iio B.bShm)

/-- There are finitely many loads. -/
lemma finite_allLoads : (allLoads B tiles).Finite :=
  (((Set.finite_Iic _).prod (Set.finite_univ.prod ((Set.finite_Iio _).prod
      (Set.finite_Iio _)))).image _).union
    (((Set.finite_Iic _).prod (Set.finite_univ.prod ((Set.finite_Iio _).prod
      (Set.finite_Iio _)))).image _)

/-- What has been issued is one of them. -/
lemma Issued.mem_allLoads (h : (ringMachine B rows tiles).Reachable m₀ c)
    (hissued : Issued B rows c l) : l ∈ allLoads B tiles := by
  have hle : c.epoch .block ≤ 2 * tiles := h.epoch_le .block
  have hepoch := hissued.epoch_le.trans hle
  cases l with
  | a n t g it =>
    obtain ⟨hran, hit, -⟩ := hissued
    have hg := hran.runs.2.2
    exact Or.inl ⟨(n, t, g, it), ⟨hepoch, trivial, show g < _ by omega, hit⟩, rfl⟩
  | b n w lin byte =>
    obtain ⟨hran, hbyte⟩ := hissued
    have hlin : lin < B.steps n := hran.runs.2.2.2
    refine Or.inr ⟨(n, w, lin, byte), ⟨hepoch, trivial, show lin < _ from ?_, hbyte⟩, rfl⟩
    unfold RingBuild.steps at hlin
    split_ifs at hlin <;> omega

/-- The operations of the tile loop. -/
def allOps (B : RingBuild) (tiles : ℕ) : Set (ℕ × Party × Worker × RingOp) :=
  (⋃ n ∈ Set.Iic (2 * tiles), ⋃ t : Tid, {p | p ∈ (B.program n t).map fun i =>
      (n, Party.block, Worker.thread t, i)}) ∪
    (fun l => (1, Party.engine, Worker.copy l, RingOp.land l)) '' allLoads B tiles

/-- There are finitely many operations. -/
lemma finite_allOps : (allOps B tiles).Finite :=
  ((Set.finite_Iic _).biUnion fun _ _ => Set.finite_iUnion fun _ => List.finite_toSet _).union
    (finite_allLoads.image _)

/-- What is enabled is one of them. -/
lemma mem_allOps (h : (ringMachine B rows tiles).Reachable m₀ c) {r : Party} {x : Worker}
    (hhead : c.Head r x i) (henabled : ringEnabled B rows c r x i) :
    (c.epoch r, r, x, i) ∈ allOps B tiles := by
  cases r with
  | block =>
    obtain ⟨t, rfl⟩ := block_head h hhead
    refine Or.inl (Set.mem_biUnion (h.epoch_le .block) (Set.mem_iUnion.mpr ⟨t, ?_⟩))
    exact List.mem_map.mpr ⟨i, Config.Head.mem_prog h hhead, rfl⟩
  | engine =>
    obtain ⟨l, rfl, rfl, hfirst⟩ := engine_head h hhead
    rw [hfirst]
    exact Or.inr ⟨l, Issued.mem_allLoads h henabled, rfl⟩

/-- A maximal run comes to its end. -/
lemma exists_stuck_of_maximalRun {run : ℕ → RingConfig}
    (h : (ringMachine B rows tiles).MaximalRun m₀ run) :
    ∃ K, ∀ k, K ≤ k → ∀ c', ¬ (ringMachine B rows tiles).Step (run k) c' :=
  h.exists_stuck_of_finite (ringMachine_staged rows tiles) (finite_allOps : (allOps B tiles).Finite)
    fun _ _ _ _ hc hhead henabled => mem_allOps hc hhead henabled

/-- An operation of a phase is at some time the next one of its thread, with its guard open. -/
lemma exists_ring_head (B : RingBuild) (rows : ℕ → ℕ) (tiles : ℕ) (m₀ : RingMem) {n : ℕ} {t : Tid}
    {i : RingOp} (hpos : 0 < n) (hle : n ≤ 2 * tiles) (hruns : B.Runs n t i) :
    ∃ c, (ringMachine B rows tiles).Reachable m₀ c ∧ c.epoch .block = n ∧ Head c t i ∧
      ringEnabled B rows c .block (.thread t) i := by
  obtain ⟨run, hrun⟩ := (ringMachine B rows tiles).exists_maximalRun m₀
  obtain ⟨K, hK⟩ := exists_stuck_of_maximalRun hrun
  have hreach := hrun.reachable K
  obtain ⟨hepoch, hidle⟩ := through_of_stuck hreach (hK K le_rfl)
  have hran : (ringMachine B rows tiles).Ran (run K) n .block (.thread t) i :=
    .of_finished (hidle t) (hle.trans_eq hepoch.symm) (mem_program.mpr ⟨hpos, hruns⟩)
  exact hran.exists_head (ringMachine_staged rows tiles) hreach

/-- Three tiles of 128 rows, over rings that hold anything.  A product of step 5 of the second
tile's up projection is about to be issued, and a thread of its down projection waits at step 7,
whose load has come in. -/
theorem operand_pipelines_deepseek :
    let m₀ : RingMem := ⟨fun _ _ _ => ⟨7, 7⟩, fun _ _ _ => ⟨7, 7, 7⟩, fun _ _ => ⟨5, 0, 3⟩⟩
    let M := ringMachine deepseekRings (fun _ => 128) 3
    (∃ c, M.Reachable m₀ c ∧ c.epoch .block = 3 ∧ Head c (wgLeader 0) (.wgmma 5 0) ∧
      (∀ t, ∀ it < 4, c.mem.aRing 1 t it = ⟨1, 5⟩) ∧
      ∀ byte < 8192, c.mem.bRing 0 1 byte = deepseekRings.weightTile 3 0 5) ∧
    ∃ c, M.Reachable m₀ c ∧ c.epoch .block = 4 ∧ Head c (wgLeader 1) (.mbarrierWait 7) ∧
      Issued deepseekRings (fun _ => 128) c (.b 4 1 7 0) ∧ (c.mem.bar 1 1).phase = 4 := by
  intro m₀ M
  constructor
  · obtain ⟨c, h, hepoch, hhead, -⟩ := exists_ring_head deepseekRings (fun _ => 128) 3 m₀
      (n := 3) (t := wgLeader 0) (i := .wgmma 5 0) (by decide) (by decide)
      ⟨by decide, by decide⟩
    obtain ⟨hread, hwindow, -⟩ := operand_pipelines deepseekRings (fun _ => 128) 3 m₀ c 3 h hepoch
    obtain ⟨ha, hb⟩ := hwindow 0 5 (hread _ _ _ hhead)
    exact ⟨c, h, hepoch, hhead, fun t it hit => (ha rfl t it hit).1,
      fun byte hbyte => (hb byte hbyte).1⟩
  · obtain ⟨c, h, hepoch, hhead, henabled⟩ := exists_ring_head deepseekRings
      (fun _ => 128) 3 m₀ (n := 4) (t := wgLeader 1) (i := .mbarrierWait 7) (by decide) (by decide)
      (show 7 < deepseekRings.steps 4 by decide)
    obtain ⟨-, -, hwait, -⟩ := operand_pipelines deepseekRings (fun _ => 128) 3 m₀ c 4 h hepoch
    obtain ⟨-, hphase, -, hopen⟩ := hwait _ _ hhead
    have hloaded := hopen.mp henabled
    exact ⟨c, h, hepoch, hhead, ⟨hloaded.1, by decide⟩, hphase hloaded⟩

/-- The tile loop never hangs.  Whatever the order in which the threads and the loads take their
steps, a run that goes on as long as it can comes to a point from which on the block is through
with all phases of all its tiles, and no load is in flight. -/
theorem operand_pipelines_finish (B : RingBuild) (rows : ℕ → ℕ) (tiles : ℕ) (m₀ : RingMem)
    (run : ℕ → RingConfig) (h : (ringMachine B rows tiles).MaximalRun m₀ run) :
    ∃ K, ∀ k, K ≤ k → (run k).epoch .block = 2 * tiles ∧
      (∀ t, (run k).rest .block (.thread t) = []) ∧ ∀ l, Issued B rows (run k) l →
        Landed (run k) l := by
  obtain ⟨K, hK⟩ := exists_stuck_of_maximalRun h
  refine ⟨K, fun k hk => ?_⟩
  have hreach := h.reachable k
  obtain ⟨hepoch, hidle⟩ := through_of_stuck hreach (hK k hk)
  exact ⟨hepoch, hidle, fun l => landed_of_stuck hreach (hK k hk)⟩

/-- The rings of the tensor-parallel DeepSeek-V3 build, over three tiles: there is a run that goes
on as long as it can, and it gets through. -/
theorem operand_pipelines_finish_deepseek :
    let m₀ : RingMem := ⟨fun _ _ _ => ⟨7, 7⟩, fun _ _ _ => ⟨7, 7, 7⟩, fun _ _ => ⟨5, 0, 3⟩⟩
    ∃ run, (ringMachine deepseekRings (fun _ => 128) 3).MaximalRun m₀ run ∧
      ∃ k, (run k).epoch .block = 6 ∧ ∀ t, (run k).rest .block (.thread t) = [] := by
  obtain ⟨run, hrun⟩ := (ringMachine deepseekRings (fun _ => 128) 3).exists_maximalRun
    ⟨fun _ _ _ => ⟨7, 7⟩, fun _ _ _ => ⟨7, 7, 7⟩, fun _ _ => ⟨5, 0, 3⟩⟩
  obtain ⟨K, hK⟩ := operand_pipelines_finish deepseekRings (fun _ => 128) 3 _ run hrun
  exact ⟨run, hrun, K, (hK K le_rfl).1, (hK K le_rfl).2.1⟩

end Runs

end UnimonoMoe
