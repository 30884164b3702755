import UnimonoMoe.Kernel.GridSequential
import UnimonoMoe.Kernel.Pipeline

/-!
# A launch on the grid

The threads of the grid run the stores and atomics of the phases 1a, 1b, 1c, 2 and 3 over one
memory, with the calls of `grid_barrier` in between.  What a thread does in a phase it reads off the
tables in memory (`launchProg`): how many tiles an expert has off the histogram, which tiles there
are off the schedule, where to store off `sorted_token_ids`.  The ids and the weights are those that
the router has left; with the fused epilogue the output is what the compute blocks store before the
reduction.

A phase reads only what earlier phases have stored, so while it runs the programs of its threads
stay what they are, and its operations execute in some interleaving of these programs
(`foldl_phase`).  Phase by phase this gives a run of the pipeline that leaves the same in
`output_accum` and in the output (`exists_pipelineRun`).  The barrier keeps the phases apart and
brings every run of the launch to its end, and then the output is the sum over the slots of every
token (`grid_launch_output`).
-/

namespace UnimonoMoe

open Epochs Loops Interleaving PrefixSum

/-! ## Memory and operations -/

/-- A store of phase 1b. -/
inductive SchedOp
  /-- `ws->expert_offsets[e] = off_e` -/
  | offset (e : ℕ)
  /-- `ws->write_ptrs[e] = off_e` -/
  | writePtr (e : ℕ)
  /-- `ws->expert_offsets[NUM_EXPERTS] = off_e + cnt` -/
  | lastOffset (e : ℕ)
  /-- `ws->total_tiles = tbase + tiles_e` -/
  | totalTiles (e : ℕ)
  /-- `ws->tile_expert[tbase + i] = e` and `ws->tile_row_start[tbase + i] = off_e + i * block_m` -/
  | tile (e i : ℕ)
deriving DecidableEq, Repr

/-- A memory operation of the launch. -/
inductive LaunchOp
  /-- `atomicAdd(&ws->expert_counts[e], 1)` for pair `i` -/
  | count (i : ℕ)
  | sched (op : SchedOp)
  | scatter (op : ScatterOp)
  | cell (op : CellOp)
  /-- the sum and the store of output element `x` -/
  | out (x : ℕ)
deriving DecidableEq, Repr

/-- The memory the phases work on; `pos i` is the local `pos` of the scatter of pair `i`. -/
structure LaunchMem (P O : Type*) where
  expertCounts : ℕ → ℕ
  offsets : ℕ → ℕ
  writePtrs : ℕ → ℕ
  totalTiles : ℕ
  tileExpert : ℕ → ℕ
  tileRowStart : ℕ → ℕ
  pos : ℕ → ℕ
  sorted : ℕ → ℕ
  accum : ℕ → P
  out : ℕ → O

namespace LaunchMem

variable {Y P O : Type*} (d : LaunchMem P O)

/-- The tables that phase 2 reads. -/
def sched : Schedule := ⟨d.offsets, d.writePtrs, d.totalTiles, d.tileExpert, d.tileRowStart⟩

/-- The memory with other tables. -/
def withTables (T : Schedule) : LaunchMem P O :=
  { d with
    offsets := T.offsets
    writePtrs := T.writePtrs
    totalTiles := T.totalTiles
    tileExpert := T.tileExpert
    tileRowStart := T.tileRowStart }

/-- The memory of the scatter. -/
def scatterState : ScatterState := ⟨d.writePtrs, d.pos, d.sorted⟩

/-- The memory as the scatter leaves it. -/
def withScatter (s : ScatterState) : LaunchMem P O :=
  { d with writePtrs := s.writePtrs, pos := s.pos, sorted := s.sorted }

/-- The memory after the launcher has zeroed the workspace. -/
def start (old : Leftovers Y P O) : LaunchMem P O where
  expertCounts _ := 0
  offsets _ := 0
  writePtrs _ := 0
  totalTiles := 0
  tileExpert _ := 0
  tileRowStart _ := 0
  pos _ := 0
  sorted := old.sorted
  accum := old.accum
  out := old.out

/-- `atomicAdd(&ws->expert_counts[e], 1)` -/
def count (ids : ℕ → ℤ) (i : ℕ) : LaunchMem P O :=
  let e := expertOf ids i
  { d with expertCounts := Function.update d.expertCounts e (d.expertCounts e + 1) }

/-- A store of phase 1b, from the histogram `counts`. -/
def schedStep (B : Build) (counts : ℕ → ℕ) (d : LaunchMem P O) : SchedOp → LaunchMem P O
  | .offset e => { d with offsets := Function.update d.offsets e (B.offOf counts e) }
  | .writePtr e => { d with writePtrs := Function.update d.writePtrs e (B.offOf counts e) }
  | .lastOffset e =>
    { d with offsets := Function.update d.offsets B.numExperts (B.offOf counts e + counts e) }
  | .totalTiles e => { d with totalTiles := B.tbaseOf counts e + B.tilesOf counts e }
  | .tile e i =>
    { d with
      tileExpert := Function.update d.tileExpert (B.tbaseOf counts e + i) e
      tileRowStart := Function.update d.tileRowStart (B.tbaseOf counts e + i)
        (B.offOf counts e + i * B.blockM) }

/-- An operation of the scatter. -/
def scatterStep (ids : ℕ → ℤ) (op : ScatterOp) : LaunchMem P O :=
  d.withScatter (d.scatterState.step ids op)

end LaunchMem

section Launch

variable {Y W P S O : Type*} (B : Build) (a : LaunchArgs) (ids : ℕ → ℤ) (ops : RowOps Y W P S O)
  (weights : ℕ → W) (stage : ℕ → Y)

/-- What an operation does to the memory. -/
def LaunchMem.step (d : LaunchMem P O) : LaunchOp → LaunchMem P O
  | .count i => d.count ids i
  | .sched op => d.schedStep B d.expertCounts op
  | .scatter op => d.scatterStep ids op
  | .cell op =>
    { d with
      accum := Function.update d.accum (cellAddr B a.numTokens d.sched d.sorted op)
        (cellVal B d.sched d.sorted ops stage weights op) }
  | .out x => { d with out := Function.update d.out x (outVal B a ids ops d.accum x) }

/-- The stores of a thread of phase 1b: thread `e` of block 0 makes those of expert `e`. -/
def schedProg (counts : ℕ → ℕ) (t : B.Thread) : List SchedOp :=
  if (t.1 : ℕ) = 0 then
    .offset t.2 :: .writePtr t.2 ::
      ((if (t.2 : ℕ) = B.numExperts - 1 then [.lastOffset t.2, .totalTiles t.2] else []) ++
        (tileProg B counts t).map fun p => .tile p.1 p.2)
  else []

/-- The operations of a thread in phase `n`, given what is in memory. -/
def launchProg (n : ℕ) (t : B.Thread) (d : LaunchMem P O) : List LaunchOp :=
  match n with
  | 1 => (countProg B a.numTokens ids t).map .count
  | 2 => (schedProg B d.expertCounts t).map .sched
  | 3 => (scatterProg B a.numTokens ids t).map .scatter
  | 4 => (cellProg B d.sched t).map .cell
  | 5 => (outProg B a t).map .out
  | _ => []

/-- A bound on the operations of a thread in phase `n`: the tables have room for `MAX_TILES`
tiles. -/
def launchLimit (n : ℕ) (t : B.Thread) : ℕ :=
  match n with
  | 1 => (countProg B a.numTokens ids t).length
  | 2 => B.maxTiles + 4
  | 3 => (scatterProg B a.numTokens ids t).length
  | 4 => B.maxTiles * (B.passesPerWg * (2 * (4 * 8)))
  | 5 => (outProg B a t).length
  | _ => 0

/-- The grid of a build, on a device with `smCount` multiprocessors. -/
abbrev Build.grid (smCount : ℕ) (hfit : B.gridSize ≤ smCount) (hsm : smCount < 2 ^ 31) :
    BarrierGrid where
  gridSize := B.gridSize
  blockSize := B.blockSize
  smCount := smCount
  gridSize_pos := B.gridSize_pos
  blockSize_pos := B.blockSize_pos
  coResident := hfit
  smCount_lt := hsm

variable {smCount : ℕ} (hfit : B.gridSize ≤ smCount) (hsm : smCount < 2 ^ 31)

/-- The phases of the launch.  A thread that is through with its program of a phase does nothing
more. -/
def launchPhases : Phases (B.grid smCount hfit hsm) (LaunchMem P O) where
  count n b t := launchLimit B a ids n (b, t)
  act n b t k d :=
    match (launchProg B a ids n (b, t) d)[k]? with
    | some op => d.step B a ids ops weights stage op
    | none => d

variable {B a ids}

/-! ## The tables of phase 1b -/

/-- The stores phase 1b has to make. -/
def ValidSched (B : Build) (counts : ℕ → ℕ) : SchedOp → Prop
  | .offset e | .writePtr e => e < B.numExperts
  | .lastOffset e | .totalTiles e => e = B.numExperts - 1
  | .tile e i => e < B.numExperts ∧ i < B.tilesOf counts e

/-- Block 0 writes the tables, each thread the entries of its expert. -/
lemma mem_schedProg {counts : ℕ → ℕ} {t : B.Thread} {op : SchedOp} :
    op ∈ schedProg B counts t ↔ (t.1 : ℕ) = 0 ∧ match op with
      | .offset e | .writePtr e => e = t.2
      | .lastOffset e | .totalTiles e => e = t.2 ∧ e = B.numExperts - 1
      | .tile e i => e = t.2 ∧ i < B.tilesOf counts e := by
  unfold schedProg tileProg
  by_cases hb : (t.1 : ℕ) = 0
  · by_cases hlast : (t.2 : ℕ) = B.numExperts - 1 <;> cases op <;> simp [hb, hlast] <;> grind
  · simp [hb]

/-- A run of phase 1b makes these stores. -/
lemma mem_schedOps {counts : ℕ → ℕ} {run : List (B.Thread × SchedOp)}
    (hrun : Interleaves (schedProg B counts) run) {op : SchedOp} :
    op ∈ run.map Prod.snd ↔ ValidSched B counts op := by
  have hlt : ∀ t : B.Thread, (t.2 : ℕ) < B.numExperts := fun t =>
    lt_of_lt_of_eq t.2.isLt B.blockSize_eq
  have hthread : ∀ e < B.numExperts, ∃ t : B.Thread, (t.1 : ℕ) = 0 ∧ (t.2 : ℕ) = e := fun e he =>
    ⟨(⟨0, B.gridSize_pos⟩, ⟨e, B.blockSize_eq ▸ he⟩), rfl, rfl⟩
  have hpos := numExperts_pos (B := B)
  have hiff : op ∈ run.map Prod.snd ↔ ∃ t, op ∈ schedProg B counts t := by
    simp only [List.mem_map, Prod.exists, exists_eq_right, hrun.mem_iff]
  rw [hiff]
  simp only [mem_schedProg]
  cases op with
  | offset e | writePtr e =>
    exact ⟨fun ⟨t, _, he⟩ => he ▸ hlt t, fun he =>
      let ⟨t, hb, ht⟩ := hthread e he
      ⟨t, hb, ht.symm⟩⟩
  | lastOffset e | totalTiles e =>
    refine ⟨fun ⟨t, _, _, he⟩ => he, fun he => ?_⟩
    obtain ⟨t, hb, ht⟩ := hthread e (by simp only [ValidSched] at he; omega)
    exact ⟨t, hb, ht.symm, he⟩
  | tile e i =>
    exact ⟨fun ⟨t, _, he, hi⟩ => ⟨he ▸ hlt t, hi⟩, fun ⟨he, hi⟩ =>
      let ⟨t, hb, ht⟩ := hthread e he
      ⟨t, hb, ht.symm, hi⟩⟩

/-- The stores of the tiles among those of phase 1b. -/
def SchedOp.tileOf : SchedOp → Option (ℕ × ℕ)
  | .tile e i => some (e, i)
  | _ => none

/-- The tiles among them are those of phase 1b. -/
lemma filterMap_tileOf (counts : ℕ → ℕ) (t : B.Thread) :
    (schedProg B counts t).filterMap SchedOp.tileOf = tileProg B counts t := by
  have hmap : ∀ l : List (ℕ × ℕ), (l.map fun p => SchedOp.tile p.1 p.2).filterMap SchedOp.tileOf =
      l := fun l => by
    rw [List.filterMap_map]
    exact List.filterMap_some
  unfold schedProg
  by_cases hb : (t.1 : ℕ) = 0
  · rw [if_pos hb]
    by_cases hlast : (t.2 : ℕ) = B.numExperts - 1
    · rw [if_pos hlast]
      exact hmap _
    · rw [if_neg hlast]
      exact hmap _
  · rw [if_neg hb]
    unfold tileProg
    rw [if_neg hb]
    rfl

/-- Phase 1b touches nothing but the tables. -/
lemma foldl_schedStep (counts : ℕ → ℕ) (l : List SchedOp) (d : LaunchMem P O) :
    l.foldl (LaunchMem.schedStep B counts) d =
      d.withTables (l.foldl (LaunchMem.schedStep B counts) d).sched := by
  induction l generalizing d with
  | nil => rfl
  | cons op l ih =>
    refine (ih _).trans ?_
    cases op <;> rfl

/-- An entry of the tables that is the subject of a single store. -/
lemma entry_schedOps {α : Type*} {counts : ℕ → ℕ} {run : List (B.Thread × SchedOp)}
    (hrun : Interleaves (schedProg B counts) run) (get : LaunchMem P O → α) {op : SchedOp} {v : α}
    (hop : ValidSched B counts op) (hstore : ∀ d : LaunchMem P O, get (d.schedStep B counts op) = v)
    (hkeep : ∀ d : LaunchMem P O, ∀ op', ValidSched B counts op' → op' ≠ op →
      get (d.schedStep B counts op') = get d) (d : LaunchMem P O) :
    get ((run.map Prod.snd).foldl (LaunchMem.schedStep B counts) d) = v := by
  apply foldl_eq_of_mem get ((mem_schedOps hrun).mpr hop) hstore
  exact fun d op' hop' hne => hkeep d op' ((mem_schedOps hrun).mp hop') hne

/-- Different tiles have different places in the tables. -/
lemma tbaseOf_add_inj {counts : ℕ → ℕ} {e i e' i' : ℕ} (h : ValidSched B counts (.tile e i))
    (h' : ValidSched B counts (.tile e' i'))
    (heq : B.tbaseOf counts e + i = B.tbaseOf counts e' + i') : e = e' ∧ i = i' := by
  rw [tbaseOf_eq h.1, tbaseOf_eq h'.1] at heq
  have hin : InRegion (B.tilesOf counts) e (offset (B.tilesOf counts) e + i) :=
    ⟨Nat.le_add_right _ _, Nat.add_lt_add_left h.2 _⟩
  have hin' : InRegion (B.tilesOf counts) e' (offset (B.tilesOf counts) e + i) := by
    rw [heq]
    exact ⟨Nat.le_add_right _ _, Nat.add_lt_add_left h'.2 _⟩
  obtain rfl := region_unique hin hin'
  exact ⟨rfl, Nat.add_left_cancel heq⟩

/-- The tables that phase 1b leaves, whatever they held before. -/
theorem scheduled_schedOps {counts : ℕ → ℕ} {run : List (B.Thread × SchedOp)}
    (hrun : Interleaves (schedProg B counts) run) (d : LaunchMem P O) :
    Scheduled B counts ((run.map Prod.snd).foldl (LaunchMem.schedStep B counts) d).sched := by
  have hlast : B.numExperts - 1 < B.numExperts := Nat.sub_lt numExperts_pos Nat.one_pos
  have hend : B.numExperts - 1 + 1 = B.numExperts := Nat.sub_add_cancel numExperts_pos
  refine ⟨fun e he => ?_, fun e he => ?_, ?_, fun e he i hi => ?_⟩
  · rcases Nat.lt_or_eq_of_le he with hlt | rfl
    · apply entry_schedOps hrun (fun d => d.offsets e)
        (show ValidSched B counts (.offset e) from hlt)
      · exact fun d => (Function.update_self ..).trans (offOf_eq hlt)
      · intro d op hop hne
        cases op with
        | offset e' =>
          exact Function.update_of_ne (fun heq => hne (congrArg SchedOp.offset heq.symm)) _ _
        | lastOffset e' => exact Function.update_of_ne hlt.ne _ _
        | _ => rfl
    · apply entry_schedOps hrun (fun d => d.offsets B.numExperts)
        (show ValidSched B counts (.lastOffset (B.numExperts - 1)) from rfl)
      · intro d
        refine (Function.update_self ..).trans ?_
        rw [offOf_eq hlast, ← offset_succ, hend]
      · intro d op hop hne
        cases op with
        | offset e' => exact Function.update_of_ne (show e' < B.numExperts from hop).ne' _ _
        | lastOffset e' => exact absurd (congrArg SchedOp.lastOffset hop) hne
        | _ => rfl
  · apply entry_schedOps hrun (fun d => d.writePtrs e)
      (show ValidSched B counts (.writePtr e) from he)
    · exact fun d => (Function.update_self ..).trans (offOf_eq he)
    · intro d op hop hne
      cases op with
      | writePtr e' =>
        exact Function.update_of_ne (fun heq => hne (congrArg SchedOp.writePtr heq.symm)) _ _
      | _ => rfl
  · apply entry_schedOps hrun (fun d => d.totalTiles)
      (show ValidSched B counts (.totalTiles (B.numExperts - 1)) from rfl)
    · intro d
      refine Eq.trans (b := B.tbaseOf counts (B.numExperts - 1) + _) rfl ?_
      rw [tbaseOf_eq hlast, ← offset_succ, hend]
    · intro d op hop hne
      cases op with
      | totalTiles e' => exact absurd (congrArg SchedOp.totalTiles hop) hne
      | _ => rfl
  · have hvalid : ValidSched B counts (.tile e i) := ⟨he, hi⟩
    have hother : ∀ e' i', ValidSched B counts (.tile e' i') → SchedOp.tile e' i' ≠ .tile e i →
        B.tbaseOf counts e + i ≠ B.tbaseOf counts e' + i' := by
      intro e' i' hvalid' hne heq
      obtain ⟨rfl, rfl⟩ := tbaseOf_add_inj hvalid hvalid' heq
      exact hne rfl
    rw [← tbaseOf_eq he, ← offOf_eq he]
    constructor
    · apply entry_schedOps hrun (fun d => d.tileExpert (B.tbaseOf counts e + i)) hvalid
      · exact fun d => Function.update_self ..
      · intro d op hop hne
        cases op with
        | tile e' i' => exact Function.update_of_ne (hother e' i' hop hne) _ _
        | _ => rfl
    · apply entry_schedOps hrun (fun d => d.tileRowStart (B.tbaseOf counts e + i)) hvalid
      · exact fun d => Function.update_self ..
      · intro d op hop hne
        cases op with
        | tile e' i' => exact Function.update_of_ne (hother e' i' hop hne) _ _
        | _ => rfl

/-! ## One phase -/

section OnePhase

/-- A phase whose programs stay what they are while it runs.  The operations of the phase execute in
some interleaving of these programs. -/
lemma foldl_phase {κ : Type*} {n : ℕ} (base : B.Thread → List κ) (f : κ → LaunchOp)
    (g : LaunchMem P O → κ → LaunchMem P O) (Inv : LaunchMem P O → Prop)
    (hprog : ∀ d, Inv d → ∀ t, launchProg B a ids n t d = (base t).map f)
    (hstep : ∀ d k, Inv d → d.step B a ids ops weights stage (f k) = g d k ∧ Inv (g d k))
    (hlimit : ∀ t, (base t).length ≤ launchLimit B a ids n t) {run : List (B.Thread × ℕ)}
    (hrun : Interleaves (fun t => List.range (launchLimit B a ids n t)) run)
    {d : LaunchMem P O} (hd : Inv d) :
    ∃ run' : List (B.Thread × κ), Interleaves base run' ∧
      run.foldl ((launchPhases B a ids ops weights stage hfit hsm).apply n) d =
        (run'.map Prod.snd).foldl g d := by
  refine ⟨run.filterMap fun p => ((base p.1)[p.2]?).map (p.1, ·), fun t => ?_, ?_⟩
  · have hsel := hrun.filterMap fun t k => (base t)[k]?
    exact (hsel t).trans (filterMap_range_getElem? (base t) (hlimit t))
  · clear hrun
    induction run generalizing d with
    | nil => rfl
    | cons p run ih =>
      have hget : (launchProg B a ids n p.1 d)[p.2]? = ((base p.1)[p.2]?).map f := by
        rw [hprog d hd p.1, List.getElem?_map]
      rw [List.foldl_cons, List.filterMap_cons]
      have happly : (launchPhases B a ids ops weights stage hfit hsm).apply n d p =
          match (launchProg B a ids n p.1 d)[p.2]? with
          | some op => d.step B a ids ops weights stage op
          | none => d := rfl
      rw [happly, hget]
      cases (base p.1)[p.2]? with
      | none => exact ih hd
      | some k =>
        obtain ⟨heq, hinv⟩ := hstep d k hd
        simp only [Option.map_some, List.map_cons, List.foldl_cons, heq]
        exact ih hinv

/-! ## Phases 1a, 1c, 2 and 3 -/

/-- Phase 1a leaves the histogram, if it starts from zero. -/
lemma foldl_phaseCount {run : List (B.Thread × ℕ)}
    (hrun : Interleaves (fun t => List.range (launchLimit B a ids 1 t)) run) {d : LaunchMem P O}
    (hd : d.expertCounts = fun _ => 0) : ∃ count : List (B.Thread × ℕ),
      Interleaves (countProg B a.numTokens ids) count ∧
        run.foldl ((launchPhases B a ids ops weights stage hfit hsm).apply 1) d =
          { d with expertCounts := slotCount B a.numTokens ids } := by
  obtain ⟨count, hcount, heq⟩ := foldl_phase ops weights stage hfit hsm
    (countProg B a.numTokens ids) .count (fun d i => d.count ids i) (fun _ => True)
    (fun _ _ _ => rfl) (fun _ _ _ => ⟨rfl, trivial⟩) (fun _ => le_rfl) hrun (d := d) trivial
  have hfold : (count.map Prod.snd).foldl (fun d i => d.count ids i) d =
      { d with
        expertCounts := (count.map Prod.snd).foldl (fun c i => Function.update c (expertOf ids i)
          (c (expertOf ids i) + 1)) d.expertCounts } :=
    List.foldl_hom (fun c => { d with expertCounts := c }) fun _ _ => rfl
  refine ⟨count, hcount, heq.trans ?_⟩
  rw [hfold, hd, List.foldl_map, ← countPhase_eq hcount]
  rfl

/-- Phase 1c is a run of the scatter. -/
lemma foldl_phaseScatter {run : List (B.Thread × ℕ)}
    (hrun : Interleaves (fun t => List.range (launchLimit B a ids 3 t)) run) (d : LaunchMem P O) :
    ∃ scatter : List (B.Thread × ScatterOp),
      Interleaves (scatterProg B a.numTokens ids) scatter ∧
        run.foldl ((launchPhases B a ids ops weights stage hfit hsm).apply 3) d =
          d.withScatter ((scatter.map Prod.snd).foldl (ScatterState.step ids) d.scatterState) := by
  obtain ⟨scatter, hscatter, heq⟩ := foldl_phase ops weights stage hfit hsm
    (scatterProg B a.numTokens ids) .scatter (fun d op => d.scatterStep ids op) (fun _ => True)
    (fun _ _ _ => rfl) (fun _ _ _ => ⟨rfl, trivial⟩) (fun _ => le_rfl) hrun (d := d) trivial
  have hfold : (scatter.map Prod.snd).foldl (fun d op => d.scatterStep ids op)
      (d.withScatter d.scatterState) =
        d.withScatter ((scatter.map Prod.snd).foldl (ScatterState.step ids) d.scatterState) :=
    List.foldl_hom d.withScatter fun _ _ => rfl
  exact ⟨scatter, hscatter, heq.trans hfold⟩

/-- Phase 2 makes the stores of the tiles that the tables hold. -/
lemma foldl_phaseCells {run : List (B.Thread × ℕ)}
    (hrun : Interleaves (fun t => List.range (launchLimit B a ids 4 t)) run) {d : LaunchMem P O}
    (hlimit : ∀ t, (cellProg B d.sched t).length ≤ launchLimit B a ids 4 t) :
    ∃ cells : List (B.Thread × CellOp), Interleaves (cellProg B d.sched) cells ∧
      run.foldl ((launchPhases B a ids ops weights stage hfit hsm).apply 4) d =
        { d with
          accum := storeAll (cellAddr B a.numTokens d.sched d.sorted)
            (cellVal B d.sched d.sorted ops stage weights) d.accum (cells.map Prod.snd) } := by
  obtain ⟨cells, hcells, heq⟩ := foldl_phase ops weights stage hfit hsm (cellProg B d.sched) .cell
    (fun d' op =>
      { d' with
        accum := Function.update d'.accum (cellAddr B a.numTokens d.sched d.sorted op)
          (cellVal B d.sched d.sorted ops stage weights op) })
    (fun d' => d'.sched = d.sched ∧ d'.sorted = d.sorted)
    (fun d' hd' t => by simp only [launchProg, hd'.1])
    (fun d' op hd' => ⟨by simp only [LaunchMem.step, hd'.1, hd'.2], hd'⟩) hlimit hrun
    (d := d) ⟨rfl, rfl⟩
  refine ⟨cells, hcells, heq.trans ?_⟩
  refine List.foldl_hom (fun accum => { d with accum := accum }) ?_
  exact fun _ _ => rfl

/-- Phase 3 stores the sums. -/
lemma foldl_phaseOuts {run : List (B.Thread × ℕ)}
    (hrun : Interleaves (fun t => List.range (launchLimit B a ids 5 t)) run) (d : LaunchMem P O) :
    ∃ outs : List (B.Thread × ℕ), Interleaves (outProg B a) outs ∧
      run.foldl ((launchPhases B a ids ops weights stage hfit hsm).apply 5) d =
        { d with out := storeAll id (outVal B a ids ops d.accum) d.out (outs.map Prod.snd) } := by
  obtain ⟨outs, houts, heq⟩ := foldl_phase ops weights stage hfit hsm (outProg B a) .out
    (fun d' x => { d' with out := Function.update d'.out x (outVal B a ids ops d.accum x) })
    (fun d' => d'.accum = d.accum) (fun _ _ _ => rfl)
    (fun d' x hd' => ⟨by simp only [LaunchMem.step, hd'], hd'⟩) (fun _ => le_rfl) hrun (d := d) rfl
  refine ⟨outs, houts, heq.trans ?_⟩
  refine List.foldl_hom (fun out => { d with out := out }) ?_
  exact fun _ _ => rfl

/-- Phase 1b leaves the tables of the histogram. -/
lemma foldl_phaseSched {run : List (B.Thread × ℕ)}
    (hrun : Interleaves (fun t => List.range (launchLimit B a ids 2 t)) run) {d : LaunchMem P O}
    (hlimit : ∀ t, (schedProg B d.expertCounts t).length ≤ launchLimit B a ids 2 t) :
    ∃ tiles : List (B.Thread × ℕ × ℕ), Interleaves (tileProg B d.expertCounts) tiles ∧
      ∃ T, Scheduled B d.expertCounts T ∧
        run.foldl ((launchPhases B a ids ops weights stage hfit hsm).apply 2) d =
          d.withTables T := by
  obtain ⟨stores, hstores, heq⟩ := foldl_phase ops weights stage hfit hsm
    (schedProg B d.expertCounts) .sched (LaunchMem.schedStep B d.expertCounts)
    (fun d' => d'.expertCounts = d.expertCounts) (fun d' hd' t => by simp only [launchProg, hd'])
    (fun d' op hd' => ⟨by simp only [LaunchMem.step, hd'], by cases op <;> exact hd'⟩) hlimit hrun
    (d := d) rfl
  refine ⟨stores.filterMap fun p => p.2.tileOf.map (p.1, ·), fun t => ?_, _,
    scheduled_schedOps hstores d, heq.trans (foldl_schedStep _ _ d)⟩
  exact (hstores.filterMap (fun _ => SchedOp.tileOf) t).trans (filterMap_tileOf _ t)

end OnePhase

variable {ops weights stage hfit hsm}

/-! ## Tables that agree -/

/-- Two schedules have the same tiles. -/
structure SameTiles (B : Build) (T T' : Schedule) : Prop where
  totalTiles : T.totalTiles = T'.totalTiles
  tileExpert : ∀ tile < T.totalTiles, T.tileExpert tile = T'.tileExpert tile
  tileRowStart : ∀ tile < T.totalTiles, T.tileRowStart tile = T'.tileRowStart tile
  tileRows : ∀ tile < T.totalTiles, tileRows B T tile = tileRows B T' tile

section SameTiles

variable {T T' : Schedule}

/-- The histogram determines the tiles. -/
lemma sameTiles_of_scheduled {counts : ℕ → ℕ} (h : Scheduled B counts T)
    (h' : Scheduled B counts T') : SameTiles B T T' := by
  have hdecode : ∀ tile < T.totalTiles, T.tileExpert tile = T'.tileExpert tile ∧
      T.tileRowStart tile = T'.tileRowStart tile ∧ T.tileExpert tile < B.numExperts := by
    intro tile htile
    rw [h.totalTiles] at htile
    obtain ⟨e, ⟨he, hlo, hhi⟩, -⟩ := exists_unique_region htile
    obtain ⟨i, rfl⟩ := Nat.exists_eq_add_of_le hlo
    have hi : i < B.tilesOf counts e := Nat.lt_of_add_lt_add_left hhi
    obtain ⟨hexpert, hstart⟩ := h.tile e he i hi
    obtain ⟨hexpert', hstart'⟩ := h'.tile e he i hi
    exact ⟨hexpert.trans hexpert'.symm, hstart.trans hstart'.symm, hexpert.trans_lt he⟩
  refine ⟨h.totalTiles.trans h'.totalTiles.symm, fun tile ht => (hdecode tile ht).1,
    fun tile ht => (hdecode tile ht).2.1, fun tile ht => ?_⟩
  obtain ⟨hexpert, hstart, hlt⟩ := hdecode tile ht
  unfold tileRows
  rw [h.offsets _ hlt, ← hexpert, h'.offsets _ hlt, hstart]

/-- The threads then make the same stores in phase 2. -/
lemma SameTiles.cellProg_eq (h : SameTiles B T T') (t : B.Thread) :
    cellProg B T t = cellProg B T' t := by
  unfold cellProg
  rw [← h.totalTiles]
  refine List.filter_congr fun op hop => ?_
  obtain ⟨p, hp, rfl⟩ := List.mem_map.mp hop
  have htile := ((mem_strided B.gridSize_pos).mp (List.mem_product.mp hp).1).2.1
  exact congrArg (fun rows => decide (_ < rows)) (h.tileRows p.1 htile)

/-- To the same places. -/
lemma SameTiles.cellAddr_eq (h : SameTiles B T T') {op : CellOp} (hop : op.tile < T.totalTiles)
    (sorted : ℕ → ℕ) :
    cellAddr B a.numTokens T sorted op = cellAddr B a.numTokens T' sorted op := by
  unfold cellAddr rowFi
  rw [h.tileRowStart _ hop]

/-- And with the same values. -/
lemma SameTiles.cellVal_eq (h : SameTiles B T T') {op : CellOp} (hop : op.tile < T.totalTiles)
    (sorted : ℕ → ℕ) :
    cellVal B T sorted ops stage weights op = cellVal B T' sorted ops stage weights op := by
  unfold cellVal rowFi
  rw [h.tileRowStart _ hop, h.tileExpert _ hop]

/-- So the two leave the same partials. -/
lemma SameTiles.storeAll_cells (h : SameTiles B T T') {l : List CellOp}
    (hl : ∀ op ∈ l, op.tile < T.totalTiles) (sorted : ℕ → ℕ) (accum : ℕ → P) :
    storeAll (cellAddr B a.numTokens T sorted) (cellVal B T sorted ops stage weights) accum l =
      storeAll (cellAddr B a.numTokens T' sorted) (cellVal B T' sorted ops stage weights) accum l :=
  List.foldl_ext _ _ _ fun accum op hop => by
    rw [h.cellAddr_eq (hl op hop), h.cellVal_eq (hl op hop)]

end SameTiles

/-- The scatter reads and advances the write pointers of owned pairs only. -/
lemma sorted_congr (hids : RoutedIds B a.numTokens ids) {l : List ScatterOp}
    (hl : ∀ op ∈ l, Owned B a.numTokens ids op.slot) {s s' : ScatterState}
    (hptr : ∀ e < B.numExperts, s.writePtrs e = s'.writePtrs e) (hpos : s.pos = s'.pos)
    (hsorted : s.sorted = s'.sorted) :
    (l.foldl (ScatterState.step ids) s).sorted = (l.foldl (ScatterState.step ids) s').sorted := by
  induction l generalizing s s' with
  | nil => exact hsorted
  | cons op l ih =>
    have hown := hl op List.mem_cons_self
    have he := (hown.expertOf_lt hids).trans_le B.eLocal_le
    refine ih (fun op' hop' => hl op' (List.mem_cons_of_mem _ hop')) ?_ ?_ ?_
    · intro e he'
      cases op with
      | claim i =>
        simp only [ScatterState.step, Function.update_apply]
        split_ifs
        · exact congrArg (· + 1) (hptr _ he)
        · exact hptr e he'
      | put i => exact hptr e he'
    · cases op with
      | claim i => exact congrArg₂ (Function.update · i ·) hpos (hptr _ he)
      | put i => exact hpos
    · cases op with
      | claim i => exact hsorted
      | put i =>
        simp only [ScatterState.step]
        rw [hpos, hsorted]

/-! ## The refinement -/

/-- The bound holds for phase 1b. -/
lemma length_schedProg_le (ha : Launched B a) (t : B.Thread) :
    (schedProg B (slotCount B a.numTokens ids) t).length ≤ launchLimit B a ids 2 t := by
  have htiles : (tileProg B (slotCount B a.numTokens ids) t).length ≤ B.maxTiles := by
    have hlt : (t.2 : ℕ) + 1 ≤ B.numExperts := lt_of_lt_of_eq t.2.isLt B.blockSize_eq
    have hown : B.tilesOf (slotCount B a.numTokens ids) t.2 ≤
        offset (B.tilesOf (slotCount B a.numTokens ids)) B.numExperts :=
      (Nat.le_add_left _ _).trans (offset_succ.symm.le.trans (offset_mono hlt))
    unfold tileProg
    split_ifs
    · rw [List.length_map, List.length_range]
      exact hown.trans (ha.offset_tilesOf_le ids)
    · exact Nat.zero_le _
  unfold schedProg
  simp only [launchLimit]
  split_ifs <;> simp <;> omega

/-- And for phase 2. -/
lemma length_cellProg_le {T : Schedule} (hT : T.totalTiles ≤ B.maxTiles) (t : B.Thread) :
    (cellProg B T t).length ≤ launchLimit B a ids 4 t := by
  have htiles : (strided (t.1 : ℕ) T.totalTiles B.gridSize).length ≤ B.maxTiles := by
    have hsub : strided (t.1 : ℕ) T.totalTiles B.gridSize ⊆ List.range T.totalTiles :=
      fun x hx => List.mem_range.mpr ((mem_strided B.gridSize_pos).mp hx).2.1
    have hle := (List.subperm_of_subset (nodup_strided B.gridSize_pos) hsub).length_le
    rw [List.length_range] at hle
    exact hle.trans hT
  unfold cellProg
  refine (List.length_filter_le _ _).trans ?_
  simp only [List.length_map, List.length_product, List.length_range, launchLimit]
  exact Nat.mul_le_mul_right _ htiles

/-- What the phases of the launch leave, one after another, is what a run of the pipeline leaves. -/
theorem exists_pipelineRun (ha : Launched B a) (hids : RoutedIds B a.numTokens ids)
    (old : Leftovers Y P O) {d : LaunchMem P O}
    (h : (launchPhases B a ids ops weights old.stage hfit hsm).RunsTo 5 (LaunchMem.start old) d) :
    ∃ run : PipelineRun B a ids, d.accum = run.accum ops weights old ∧
      d.out = run.out ops weights old := by
  obtain ⟨runs, hruns, rfl⟩ := h
  have hphases : ∀ d₀ : LaunchMem P O, (List.range 5).foldl (fun d k =>
      (runs (k + 1)).foldl ((launchPhases B a ids ops weights old.stage hfit hsm).apply (k + 1)) d)
        d₀ = (runs 5).foldl ((launchPhases B a ids ops weights old.stage hfit hsm).apply 5)
      ((runs 4).foldl ((launchPhases B a ids ops weights old.stage hfit hsm).apply 4)
      ((runs 3).foldl ((launchPhases B a ids ops weights old.stage hfit hsm).apply 3)
      ((runs 2).foldl ((launchPhases B a ids ops weights old.stage hfit hsm).apply 2)
      ((runs 1).foldl ((launchPhases B a ids ops weights old.stage hfit hsm).apply 1) d₀)))) :=
    fun _ => rfl
  obtain ⟨count, hcount, h₁⟩ := foldl_phaseCount ops weights old.stage hfit hsm
    (hruns 1 (by decide) (by decide)) (d := LaunchMem.start old) rfl
  obtain ⟨tiles, htiles, T, hT, h₂⟩ := foldl_phaseSched ops weights old.stage hfit hsm
    (hruns 2 (by decide) (by decide))
    (d := { LaunchMem.start old with expertCounts := slotCount B a.numTokens ids })
    (length_schedProg_le ha)
  obtain ⟨scatter, hscatter, h₃⟩ := foldl_phaseScatter ops weights old.stage hfit hsm
    (hruns 3 (by decide) (by decide))
    (LaunchMem.withTables
      { LaunchMem.start old with expertCounts := slotCount B a.numTokens ids } T)
  -- `s` is what the scatter leaves
  generalize hs : (scatter.map Prod.snd).foldl (ScatterState.step ids) _ = s at h₃
  generalize hd₃ : LaunchMem.withScatter _ s = d₃ at h₃
  have htiles' : Interleaves (tileProg B (countPhase B ids count)) tiles :=
    (countPhase_eq hcount).symm ▸ htiles
  have hsched : Scheduled B (slotCount B a.numTokens ids)
      (phase1b B (countPhase B ids count) tiles) := by
    rw [← countPhase_eq hcount]
    exact scheduled_phase1b htiles'
  have hsame : SameTiles B d₃.sched (phase1b B (countPhase B ids count) tiles) := by
    obtain ⟨htotal, hexpert, hstart, hrows⟩ := sameTiles_of_scheduled hT hsched
    rw [← hd₃]
    exact ⟨htotal, hexpert, hstart, hrows⟩
  obtain ⟨cells, hcells, h₄⟩ := foldl_phaseCells ops weights old.stage hfit hsm
    (hruns 4 (by decide) (by decide)) (d := d₃)
    (length_cellProg_le ((hsame.totalTiles.trans hsched.totalTiles).trans_le
      (ha.offset_tilesOf_le ids)))
  generalize hd₄ : { d₃ with accum := _ } = d₄ at h₄
  obtain ⟨outs, houts, h₅⟩ := foldl_phaseOuts ops weights old.stage hfit hsm
    (hruns 5 (by decide) (by decide)) d₄
  let run : PipelineRun B a ids :=
    ⟨count, tiles, scatter, cells, outs, hcount, htiles', hscatter,
      fun t => (hcells t).trans (hsame.cellProg_eq t), houts⟩
  have hsorted : d₃.sorted = run.sorted old := by
    rw [← hd₃]
    refine (congrArg ScatterState.sorted hs).symm.trans (sorted_congr hids (fun op hop => ?_)
      (fun e he => (hT.writePtrs e he).trans (hsched.writePtrs e he).symm) rfl rfl)
    exact (covers_scatterProg.mem_iff hscatter).mp hop
  have haccum : d₄.accum = run.accum ops weights old := by
    have hold : d₃.accum = old.accum := hd₃ ▸ rfl
    rw [← hd₄, hold, hsorted]
    exact hsame.storeAll_cells (fun op hop => ((covers_cellProg.mem_iff hcells).mp hop).1) _ _
  have hout : d₄.out = old.out := by rw [← hd₄, ← hd₃]; rfl
  rw [hphases, h₁, h₂, h₃, h₄, h₅]
  refine ⟨run, haccum, ?_⟩
  rw [hout, haccum]
  rfl

/-- The output of a launch is the sum of the partials of a token's slots in slot order.  Whatever
the interleaving of the operations of all threads with those of the grid barrier, and whatever the
buffers held that nobody clears, every run of a launch that the launcher lets through comes to a
point from which on all blocks are through, and then this is what the blocks have stored. -/
theorem grid_launch_output {c : LaunchCall} (hc : launcherCheck B c = 0)
    (hids : RoutedIds B c.numTokens.toNat ids) (hfit : B.gridSize ≤ smCount)
    (hsm : smCount < 2 ^ 31)
    (ops : RowOps Y W P S O) (weights : ℕ → W) (old : Leftovers Y P O)
    {m₀ : BarrierMem (LaunchMem P O)} (hzero : ZeroWorkspace B m₀)
    (hdata : m₀.data = LaunchMem.start old)
    {run : ℕ → BarrierConfig (B.grid smCount hfit hsm) (LaunchMem P O)}
    (hrun : (syncGridRun (B.grid smCount hfit hsm) (launchPhases B c.phase3Args ids ops weights
      old.stage hfit hsm)).MaximalRun m₀ run) :
    ∃ K, ∀ k, K ≤ k →
      (∀ b, ¬ (syncGridRun (B.grid smCount hfit hsm) (launchPhases B c.phase3Args ids ops weights
        old.stage hfit hsm)).Unfinished (run k) b) ∧
      ∀ tok < c.numTokens.toNat, ∀ h < B.hDim,
        (run k).mem.data.out (tok * B.hDim + h) = moeOut B ids ops weights tok h := by
  have ha := Launched.of_launcherCheck hc
  have hN : 2 ≤ (B.grid smCount hfit hsm).gridSize := B.one_lt_gridSize
  obtain ⟨K, hK⟩ := syncGrid_finishes hN hzero hrun
  refine ⟨K, fun k hk => ⟨hK k hk, fun tok htok h hh => ?_⟩⟩
  have hruns := runsTo_of_finished hN hzero (hrun.reachable k) (hK k hk)
  rw [hdata] at hruns
  obtain ⟨pipeline, -, hout⟩ := exists_pipelineRun ha hids old hruns
  rw [hout]
  exact pipeline.out_eq ha hids ops weights old htok hh

/-- Memory full of ones. -/
def onesLeft : Leftovers ℤ ℤ ℤ := ⟨fun _ => 1, fun _ => 1, fun _ => 1, fun _ => 1⟩

/-- The grid of the build fits on 132 multiprocessors. -/
lemma gridSize_qwenEP_le : qwenEP.gridSize ≤ 132 := by decide

/-- Which is few enough. -/
lemma smCount_lt : 132 < 2 ^ 31 := by decide

/-- Column `5` of token `1`. -/
theorem grid_launch_output_threeTokens :
    ∃ run, (syncGridRun (qwenEP.grid 132 gridSize_qwenEP_le smCount_lt) (launchPhases qwenEP
        threeTokens.phase3Args twoLocalSlots intOps (fun i => i) onesLeft.stage gridSize_qwenEP_le
          smCount_lt)).MaximalRun ⟨fun _ => 0#32, LaunchMem.start onesLeft⟩ run ∧
      ∃ K, ∀ k, K ≤ k → (run k).mem.data.out (1 * qwenEP.hDim + 5) = 6 * 8 + 16 * 9 := by
  obtain ⟨run, hrun⟩ := Machine.exists_maximalRun (syncGridRun (qwenEP.grid 132 gridSize_qwenEP_le
    smCount_lt) (launchPhases qwenEP threeTokens.phase3Args twoLocalSlots intOps (fun i => i)
      onesLeft.stage gridSize_qwenEP_le smCount_lt)) ⟨fun _ => 0#32, LaunchMem.start onesLeft⟩
  obtain ⟨K, hK⟩ := grid_launch_output (c := threeTokens) (by decide) routedIds_twoLocalSlots
    gridSize_qwenEP_le smCount_lt intOps (fun i => i) onesLeft (fun _ _ => rfl) rfl hrun
  exact ⟨run, hrun, K, fun k hk => (hK k hk).2 1 (by decide) 5 (by decide)⟩

end Launch

end UnimonoMoe
