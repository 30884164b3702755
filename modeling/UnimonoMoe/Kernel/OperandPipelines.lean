import UnimonoMoe.Kernel.OperandRings
import UnimonoMoe.Lib.Executions

/-!
# The operand pipelines

What the tile loop relies on when it reads its rings.  `ringStep` says once what a step of the
machine can do; everything else is about operations that have been executed (`Ran`) and loads that
have come in (`Landed`):

* a barrier and a warpgroup wait put what lies before them behind other threads (`Ran.of_sync`,
  `Ran.of_wgmmaWait`);
* behind the wait for a staging its chunks have come in (`landed_of_cpaWait`);
* the phase barrier of a slot is in the phase of the youngest weight tile of the slot, with its
  missing bytes (`RingInv`), so that a waiter gets through when the tile of its step is there;
* when a phase of a tile is over every load has come in (`RingInv.landed_of_idle`);
* a slot of a ring keeps what has come in until its next load is issued (`RingContents`).

`operand_pipelines` assembles them.
-/

namespace UnimonoMoe

open Epochs PhaseBarrier

variable {B : RingBuild} {rows : ℕ → ℕ} {tiles : ℕ} {m₀ : RingMem} {c c' : RingConfig}
  {n lin sb g it : ℕ} {t u : Tid} {w : Fin 2} {i j : RingOp}

/-! ## Steps -/

/-- The next operation of a thread. -/
def Head (c : RingConfig) (t : Tid) (i : RingOp) : Prop :=
  ∃ l, c.rest .block (.thread t) = i :: l

/-- What a step can do: a thread executes its next operation, a load comes in, the engine starts,
or the block goes on to its next phase. -/
inductive RingStep (B : RingBuild) (rows : ℕ → ℕ) (c c' : RingConfig) : Prop
  | thread (t : Tid) (i : RingOp) (head : Head c t i)
      (enabled : ringEnabled B rows c .block (.thread t) i)
      (mem : c'.mem = (ringEffect B rows c .block (.thread t) i).1)
      (parity : c'.reg .block (.thread t) = (ringEffect B rows c .block (.thread t) i).2)
      (others : ∀ u, u ≠ t → c'.reg .block (.thread u) = c.reg .block (.thread u))
      (epoch : c'.epoch .block = c.epoch .block)
      (ran : ∀ n u j, Ran B c' n u j ↔ Ran B c n u j ∨ n = c.epoch .block ∧ u = t ∧ j = i)
      (landed : ∀ l, Landed c' l ↔ Landed c l)
  | copy (l : Load) (issued : Issued B rows c l) (missing : ¬Landed c l)
      (mem : c'.mem = (ringEffect B rows c .engine (.copy l) (.land l)).1)
      (parity : ∀ u, c'.reg .block (.thread u) = c.reg .block (.thread u))
      (epoch : c'.epoch .block = c.epoch .block)
      (ran : ∀ n u j, Ran B c' n u j ↔ Ran B c n u j)
      (landed : ∀ l', Landed c' l' ↔ Landed c l' ∨ l' = l)
  | engine (mem : c'.mem = c.mem)
      (parity : ∀ u, c'.reg .block (.thread u) = c.reg .block (.thread u))
      (epoch : c'.epoch .block = c.epoch .block)
      (ran : ∀ n u j, Ran B c' n u j ↔ Ran B c n u j)
      (landed : ∀ l, Landed c' l ↔ Landed c l)
  | next (idle : ∀ u, c.rest .block (.thread u) = []) (mem : c'.mem = c.mem)
      (parity : ∀ u, c'.reg .block (.thread u) = fun _ => 0)
      (epoch : c'.epoch .block = c.epoch .block + 1)
      (ran : ∀ n u j, Ran B c' n u j ↔ Ran B c n u j)
      (landed : ∀ l, Landed c' l ↔ Landed c l)

section Steps

/-- The threads of the machine run the programs of the phase. -/
lemma mem_prog_iff : i ∈ (ringMachine B rows tiles).prog n .block (.thread t) ↔
    i ∈ B.program n t := Iff.rfl

/-- What is executed in the block is executed by its threads. -/
lemma ran_iff (rows : ℕ → ℕ) (tiles : ℕ) :
    Ran B c n t i ↔ (ringMachine B rows tiles).Ran c n .block (.thread t) i := Iff.rfl

/-- What has come in is what the engine has executed. -/
lemma landed_iff (B : RingBuild) (rows : ℕ → ℕ) (tiles : ℕ) {l : Load} :
    Landed c l ↔ (ringMachine B rows tiles).Ran c 1 .engine (.copy l) (.land l) :=
  (and_iff_right (List.mem_singleton_self _)).symm

/-- The engine runs its loads in its first epoch. -/
lemma engine_head (h : (ringMachine B rows tiles).Reachable m₀ c) {x : Worker}
    (hhead : c.Head .engine x i) :
    ∃ load, x = .copy load ∧ i = .land load ∧ c.epoch .engine = 1 := by
  have hmem := Config.Head.mem_prog h hhead
  cases x with
  | thread t => exact absurd hmem List.not_mem_nil
  | copy load =>
    have hmem : i ∈ (if c.epoch .engine = 1 then [RingOp.land load] else []) := hmem
    split_ifs at hmem with hepoch
    · exact ⟨load, rfl, List.mem_singleton.mp hmem, hepoch⟩
    · exact absurd hmem List.not_mem_nil

/-- The block runs threads. -/
lemma block_head (h : (ringMachine B rows tiles).Reachable m₀ c) {x : Worker}
    (hhead : c.Head .block x i) : ∃ t, x = .thread t := by
  have hmem := Config.Head.mem_prog h hhead
  cases x with
  | thread t => exact ⟨t, rfl⟩
  | copy load => exact absurd hmem List.not_mem_nil

/-- `RingStep` describes the steps. -/
theorem ringStep (h : (ringMachine B rows tiles).Reachable m₀ c)
    (hstep : (ringMachine B rows tiles).Step c c') : RingStep B rows c c' := by
  cases h.stepOf (ringMachine_staged rows tiles) hstep with
  | exec r x i hhead henabled hmem hreg hothers hepoch hran =>
    cases r with
    | block =>
      obtain ⟨t, rfl⟩ := block_head h hhead
      refine .thread t i hhead henabled hmem hreg (fun u hu => hothers _ _ fun heq => hu ?_)
        (congrFun hepoch _) (fun n u j => ?_) (fun load => ?_)
      · injection heq.2
      · rw [ran_iff rows tiles, ran_iff rows tiles, hran]
        simp
      · rw [landed_iff B rows tiles, landed_iff B rows tiles, hran]
        simp
    | engine =>
      obtain ⟨load, rfl, rfl, hfirst⟩ := engine_head h hhead
      have hmissing : ¬Landed c load := by
        rw [landed_iff B rows tiles, ← hfirst]
        exact hhead.not_ran
      refine .copy load henabled hmissing hmem (fun u => hothers _ _ fun heq => nomatch heq.1)
        (congrFun hepoch _) (fun n u j => ?_) (fun l' => ?_)
      · rw [ran_iff rows tiles, ran_iff rows tiles, hran]
        simp
      · rw [landed_iff B rows tiles, landed_iff B rows tiles, hran]
        simp [hfirst]
  | next r hidle hmem hreg hothers hepoch hepochs hran =>
    have hlanded : ∀ l, Landed c' l ↔ Landed c l := fun l => by
      rw [landed_iff B rows tiles, landed_iff B rows tiles, hran]
    have hblock : ∀ n u j, Ran B c' n u j ↔ Ran B c n u j := fun n u j => by
      rw [ran_iff rows tiles, ran_iff rows tiles, hran]
    cases r with
    | block =>
      exact .next (fun u => hidle _) hmem (fun u => hreg _) hepoch hblock hlanded
    | engine =>
      have hne : Party.block ≠ Party.engine := nofun
      exact .engine hmem (fun u => congrFun (hothers _ hne) _) (hepochs _ hne) hblock hlanded

end Steps

/-! ## Executed operations -/

section Executed

variable (h : (ringMachine B rows tiles).Reachable m₀ c)

/-- What has run is an instruction of the phase. -/
lemma Ran.runs (hi : Ran B c n t i) : 0 < n ∧ B.Runs n t i := mem_program.mp hi.1

omit h in
/-- Nothing of a later phase has run. -/
lemma Ran.epoch_le (hi : Ran B c n t i) : n ≤ c.epoch .block := by
  rcases hi.2 with hlt | ⟨rfl, -⟩
  · exact hlt.le
  · exact le_rfl

/-- In a past epoch everything has been executed. -/
lemma Ran.of_past (hn : 0 < n) (hlt : n < c.epoch .block) (hi : B.Runs n t i) : Ran B c n t i :=
  ⟨mem_program.mpr ⟨hn, hi⟩, Or.inl hlt⟩

include h in
/-- What a thread runs earlier has been executed. -/
lemma Ran.before (hj : Ran B c n t j) (hi : B.Runs n t i) (hlt : B.place i < B.place j) :
    Ran B c n t i :=
  ((ran_iff rows tiles).mp hj).before (ringMachine_staged rows tiles) h
    (mem_program.mpr ⟨hj.runs.1, hi⟩) hlt

include h in
/-- A barrier puts what lies before it behind every thread. -/
lemma Ran.of_sync {k : ℕ} (hk : Ran B c n t (.sync k)) (hi : B.Runs n u i) (hlt : B.place i < k) :
    Ran B c n u i := by
  refine ((ran_iff rows tiles).mp hk).of_barrier (ringMachine_staged rows tiles) h
    (fun x => ∃ u, x = Worker.thread u) ?_ ?_ ⟨u, rfl⟩ (mem_program.mpr ⟨hk.runs.1, hi⟩) hlt
  · rintro _ ⟨v, rfl⟩
    exact mem_program.mpr ⟨hk.runs.1, hk.runs.2⟩
  · rintro c henabled _ ⟨v, rfl⟩
    exact henabled v

include h in
/-- Behind the wait for a product all threads of the warpgroup have issued it. -/
lemma Ran.of_wgmmaWait (hj : Ran B c n t (.wgmmaWait lin sb)) (hu : u.wg = t.wg) :
    Ran B c n u (.wgmma lin sb) := by
  refine ⟨mem_program.mpr ⟨hj.runs.1, hj.runs.2⟩, ?_⟩
  refine h.of_done_guard (P := fun c => Done c n .block (.thread u) (.wgmma lin sb)) hj.runs.1
    (mem_prog_iff.mpr hj.1) (fun _ _ _ hstep hd => Done.step hd hstep) ?_ hj.2
  rintro c l - rfl - henabled
  exact Or.inr ⟨rfl, henabled u hu⟩

include h in
/-- The next instruction of a thread is one of its phase. -/
lemma Head.runs (hj : Head c t j) : 0 < c.epoch .block ∧ B.Runs (c.epoch .block) t j :=
  mem_program.mp (Config.Head.mem_prog h hj)

include h in
/-- What a thread runs before its next operation has been executed. -/
lemma Head.before (hj : Head c t j) (hi : B.Runs (c.epoch .block) t i)
    (hlt : B.place i < B.place j) : Ran B c (c.epoch .block) t i :=
  Config.Head.before (ringMachine_staged rows tiles) h hj
    (mem_program.mpr ⟨(Head.runs h hj).1, hi⟩) hlt

omit h in
/-- The next operation of a thread has not been executed. -/
lemma Head.not_ran (hj : Head c t j) : ¬Ran B c (c.epoch .block) t j := by
  obtain ⟨l, hrest⟩ := hj
  intro hran
  exact hran.2.not_mem rfl (by rw [hrest]; exact List.mem_cons_self)

omit h in
/-- At the start nothing has been executed. -/
lemma not_ran_init : ¬Ran B ((ringMachine B rows tiles).init m₀) n t i := fun hi =>
  Epochs.not_ran_init (ringMachine_staged rows tiles) ((ran_iff rows tiles).mp hi)

omit h in
/-- Nothing has been executed in the epoch that the block goes on to. -/
lemma not_ran_of_next (hepoch : c'.epoch .block = c.epoch .block + 1)
    (hran : ∀ n u j, Ran B c' n u j ↔ Ran B c n u j) : ¬Ran B c' (c'.epoch .block) t i := by
  intro hi
  have hle := ((hran _ _ _).mp hi).epoch_le
  omega

omit h in
/-- When nothing is ahead of a thread it has executed its program. -/
lemma Ran.of_idle (hidle : c.rest .block (.thread t) = []) (hn : 0 < c.epoch .block)
    (hi : B.Runs (c.epoch .block) t i) : Ran B c (c.epoch .block) t i :=
  ⟨mem_program.mpr ⟨hn, hi⟩, Or.inr ⟨rfl, by rw [hidle]; exact List.not_mem_nil⟩⟩

end Executed

/-! ## Loads -/

section Loads

variable (h : (ringMachine B rows tiles).Reachable m₀ c)

/-- A load that has landed stays landed. -/
lemma Landed.step {l : Load} (hl : Landed c l) (hstep : (ringMachine B rows tiles).Step c c') :
    Landed c' l := Done.step hl hstep

/-- No load of a later phase has been issued. -/
lemma Issued.epoch_le {l : Load} (hl : Issued B rows c l) : l.epoch ≤ c.epoch .block := by
  cases l with
  | a n t g it => exact hl.1.epoch_le
  | b n w lin byte => exact hl.1.epoch_le

include h in
/-- A load that has come in has been issued. -/
lemma Landed.issued {l : Load} (hl : Landed c l) : Issued B rows c l := by
  refine h.of_done_guard (P := fun c => Issued B rows c l) Nat.one_pos (List.mem_singleton_self _)
    ?_ (fun c l' _ _ _ henabled => henabled) hl
  intro c c' hc hstep hissued
  cases l with
  | a n t g it => exact ⟨⟨hissued.1.1, hissued.1.2.step hstep⟩, hissued.2⟩
  | b n w lin byte => exact ⟨⟨hissued.1.1, hissued.1.2.step hstep⟩, hissued.2⟩

/-- The place of a staging in the loop. -/
lemma place_stageA_lt {k lin : ℕ} (h : k < B.aStages - 1 + lin) :
    B.place (.stageA k) < B.base lin := by
  have hfirst := le_base (B := B) lin
  simp only [RingBuild.place]
  split_ifs with hlt
  · omega
  · have := base_add_le (B := B) (show k - (B.aStages - 1) < lin by omega)
    omega

include h in
/-- Behind the wait of a step its staging and the earlier ones have come in. -/
lemma landed_of_cpaWait (hwait : Ran B c n t (.cpaWait lin)) (hg : g ≤ lin)
    (hit : it < B.aIters) (hrow : chunkRow t it < rows (RingBuild.tileOf n)) :
    Landed c (.a n t g it) := by
  have hpos := hwait.runs.1
  obtain ⟨hup, hlin⟩ : RingBuild.isUp n = true ∧ lin < B.wgTiles := hwait.runs.2
  have hstages := B.three_le_aStages
  refine h.of_done_guard (P := fun c => Landed c (.a n t g it)) hpos (mem_prog_iff.mpr hwait.1)
    (fun _ _ _ hstep hl => hl.step hstep) ?_ hwait.2
  rintro c l hc rfl hrest henabled
  have hbefore : ∀ k, k < B.aStages - 1 + lin → Ran B c (c.epoch .block) t (.stageA k) := by
    intro k hk
    exact Head.before hc ⟨l, hrest⟩ ⟨hup, by omega⟩ (place_stageA_lt hk)
  exact henabled g it (hbefore _ (by omega)) ⟨hbefore g (by omega), hit, hrow⟩

include h in
/-- At the end of the up projection all stagings have come in. -/
lemma landed_of_cpaDrain (hdrain : Ran B c n t .cpaDrain)
    (hg : g < B.wgTiles + (B.aStages - 1)) (hit : it < B.aIters)
    (hrow : chunkRow t it < rows (RingBuild.tileOf n)) : Landed c (.a n t g it) := by
  have hpos := hdrain.runs.1
  have hup : RingBuild.isUp n = true := hdrain.runs.2
  refine h.of_done_guard (P := fun c => Landed c (.a n t g it)) hpos (mem_prog_iff.mpr hdrain.1)
    (fun _ _ _ hstep hl => hl.step hstep) ?_ hdrain.2
  rintro c l hc rfl hrest henabled
  have hran : Ran B c (c.epoch .block) t (.stageA g) :=
    Head.before hc ⟨l, hrest⟩ ⟨hup, hg⟩ (place_stageA_lt (by omega))
  exact henabled g it hran ⟨hran, hit, hrow⟩

end Loads

/-! ## The order of the steps -/

section StepOrder

variable (h : (ringMachine B rows tiles).Reachable m₀ c)

/-- The weight rings have a slot. -/
lemma depth_pos (n : ℕ) : 0 < B.depth n := by
  unfold RingBuild.depth
  split_ifs
  · exact B.upPipe_pos
  · exact B.dnPipe_pos

/-- A weight ring is no deeper than both together. -/
lemma depth_le (n : ℕ) : B.depth n ≤ B.upPipe + B.dnPipe := by
  unfold RingBuild.depth
  split_ifs
  · exact Nat.le_add_right _ _
  · exact Nat.le_add_left _ _

/-- The leader of a warpgroup has armed the weight tile of a step. -/
def Armed (B : RingBuild) (c : RingConfig) (n : ℕ) (w : Fin 2) (lin : ℕ) : Prop :=
  Ran B c n (wgLeader w) (.armTile (B.depth n) lin)

/-- The leader of a warp group is in it. -/
@[simp] lemma wg_wgLeader (w : Fin 2) : (wgLeader w).wg = w := by
  apply Fin.ext
  simp [Tid.wg, wgLeader]

/-- The leader arms every step of the phase. -/
lemma runs_armTile {w : Fin 2} (hlin : lin < B.steps n) :
    B.Runs n (wgLeader w) (.armTile (B.depth n) lin) :=
  ⟨by rw [wg_wgLeader], rfl, hlin⟩

omit h in
/-- An armed step is a step of the phase. -/
lemma Armed.lt (ha : Armed B c n w lin) : lin < B.steps n := ha.runs.2.2.2

/-- The weight tiles are armed in the order of the steps. -/
lemma place_armTile_lt {lin' : ℕ} (hlt : lin < lin') :
    B.place (.armTile (B.depth n) lin) < B.place (.armTile (B.depth n) lin') := by
  have hdepth := depth_le (B := B) n
  simp only [RingBuild.place]
  split_ifs with hlin hlin'
  · omega
  · have := le_base (B := B) (lin' - B.depth n)
    omega
  · omega
  · have := base_add_le (B := B) (show lin - B.depth n < lin' - B.depth n by omega)
    omega

include h in
/-- The steps before an armed step are armed. -/
lemma Armed.of_le (ha : Armed B c n w lin) {lin' : ℕ} (hle : lin' ≤ lin) :
    Armed B c n w lin' := by
  rcases Nat.eq_or_lt_of_le hle with rfl | hlt
  · exact ha
  · exact Ran.before h ha (runs_armTile (hlt.trans ha.lt)) (place_armTile_lt hlt)

/-- A slot is armed again behind the products of the step before. -/
lemma place_rearm : B.place (.armTile (B.depth n) (lin + B.depth n)) =
    B.base lin + 4 + 2 * B.mSubs := by
  simp [RingBuild.place]

include h in
/-- A slot is armed again once the products of its last step are through. -/
lemma Armed.ran_wgmmaWait (ha : Armed B c n w (lin + B.depth n)) (hsb : sb < B.mSubs) :
    Ran B c n (wgLeader w) (.wgmmaWait lin sb) := by
  refine Ran.before h ha ⟨by have := ha.lt; omega, hsb⟩ ?_
  rw [place_rearm]
  simp only [RingBuild.place]
  omega

include h in
/-- When a slot is armed again every thread of the warpgroup is behind the wait of its step. -/
lemma Armed.ran_mbarrierWait (ha : Armed B c n w (lin + B.depth n)) (hu : u.wg = w) :
    Ran B c n u (.mbarrierWait lin) := by
  have hlin : lin < B.steps n := by have := ha.lt; omega
  have hwait := ha.ran_wgmmaWait h (show 0 < B.mSubs from B.mSubs_pos)
  have hproduct := hwait.of_wgmmaWait h (hu.trans (wg_wgLeader w).symm)
  exact hproduct.before h hlin (by simp [RingBuild.place])

omit h in
/-- All threads take the first barrier of a phase. -/
lemma runs_sync_one : B.Runs n t (.sync 1) := by
  unfold RingBuild.Runs
  split_ifs
  · exact Or.inl (Or.inl rfl)
  · rfl

include h in
/-- Behind the first barrier the mbarriers are initialized. -/
lemma Ran.ran_mbarrierInit_of_sync (hsync : Ran B c n t (.sync 1)) : Ran B c n 0 .mbarrierInit :=
  hsync.of_sync h (rfl : ((0 : Tid) : ℕ) = 0) Nat.one_pos

include h in
/-- Nothing but the initialization happens before the first barrier. -/
lemma Ran.ran_mbarrierInit (hi : Ran B c n t i) (hplace : 1 < B.place i) :
    Ran B c n 0 .mbarrierInit :=
  (hi.before h runs_sync_one hplace).ran_mbarrierInit_of_sync h

include h in
/-- A thread past the first barrier finds the mbarriers initialized. -/
lemma Head.ran_mbarrierInit (hi : Head c t i) (hplace : 1 < B.place i) :
    Ran B c (c.epoch .block) 0 .mbarrierInit :=
  (hi.before h runs_sync_one hplace).ran_mbarrierInit_of_sync h

/-- The leader arms behind the first barrier. -/
lemma one_lt_place_armTile : 1 < B.place (.armTile (B.depth n) lin) := by
  simp only [RingBuild.place]
  split_ifs <;> omega

/-- A thread waits behind the first barrier. -/
lemma one_lt_place_mbarrierWait : 1 < B.place (.mbarrierWait lin) := by
  have := le_base (B := B) lin
  simp only [RingBuild.place]
  omega

/-- The waits come in the order of the steps. -/
lemma place_mbarrierWait_lt {lin' : ℕ} (hlt : lin < lin') :
    B.place (.mbarrierWait lin) < B.place (.mbarrierWait lin') := by
  have := base_add_le (B := B) hlt
  simp only [RingBuild.place]
  omega

end StepOrder

/-! ## Parity bits -/

/-- The parity bit that a thread brings to its next wait on a slot is that of the number of times
the slot has been used before. -/
def ParityInv (B : RingBuild) (c : RingConfig) : Prop :=
  ∀ t lin, lin < B.steps (c.epoch .block) → ¬Ran B c (c.epoch .block) t (.mbarrierWait lin) →
    (∀ k < lin, k % B.depth (c.epoch .block) = lin % B.depth (c.epoch .block) →
      Ran B c (c.epoch .block) t (.mbarrierWait k)) →
    c.reg .block (.thread t) (lin % B.depth (c.epoch .block)) =
      lin / B.depth (c.epoch .block) % 2

section Parity

/-- Only the waits touch the parity bits. -/
lemma effect_parity (hi : ∀ lin, i ≠ .mbarrierWait lin) :
    (ringEffect B rows c .block (.thread t) i).2 = c.reg .block (.thread t) := by
  cases i with
  | mbarrierWait lin => exact absurd rfl (hi lin)
  | _ => rfl

/-- Before any wait of an epoch the bits are zero. -/
lemma ParityInv.of_zero (hreg : ∀ t, c.reg .block (.thread t) = fun _ => 0)
    (hran : ∀ t lin, ¬Ran B c (c.epoch .block) t (.mbarrierWait lin)) : ParityInv B c := by
  intro t lin _ _ hprev
  have hlt : lin < B.depth (c.epoch .block) := by
    by_contra hle
    have hpos := depth_pos (B := B) (c.epoch .block)
    refine hran t (lin - B.depth (c.epoch .block)) (hprev _ (by omega) ?_)
    exact (Nat.mod_eq_sub_mod (Nat.not_lt.mp hle)).symm
  rw [hreg, Nat.div_eq_of_lt hlt]

/-- The parity changes from one use of a slot to the next. -/
lemma xor_one_mod_two (k : ℕ) : k % 2 ^^^ 1 = (k + 1) % 2 := by
  rcases Nat.mod_two_eq_zero_or_one k with h | h
  · rw [h, Nat.add_mod, h]
    rfl
  · rw [h, Nat.add_mod, h]
    rfl

/-- A wait flips the bit of its slot. -/
lemma ParityInv.wait (h : (ringMachine B rows tiles).Reachable m₀ c) (hinv : ParityInv B c)
    {k : ℕ} (hhead : Head c t (.mbarrierWait k))
    (hparity : c'.reg .block (.thread t) =
      (ringEffect B rows c .block (.thread t) (.mbarrierWait k)).2)
    (hothers : ∀ u, u ≠ t → c'.reg .block (.thread u) = c.reg .block (.thread u))
    (hepoch : c'.epoch .block = c.epoch .block)
    (hran : ∀ n u j, Ran B c' n u j ↔
      Ran B c n u j ∨ n = c.epoch .block ∧ u = t ∧ j = .mbarrierWait k) : ParityInv B c' := by
  set n := c.epoch .block with hn
  set d := B.depth n with hd
  intro u lin hlin hnot hprev
  rw [hepoch] at hlin hnot hprev ⊢
  simp only [hran, not_or, true_and, RingOp.mbarrierWait.injEq, ← hd] at hnot hprev
  have hkeep : ∀ l, l ≠ k → (Ran B c n u (.mbarrierWait l) ∨ u = t ∧ l = k) →
      Ran B c n u (.mbarrierWait l) := fun l hl hor => hor.resolve_right fun heq => hl heq.2
  have hrunsk : k < B.steps n := hhead.runs h |>.2
  have hbefore : ∀ l < k, Ran B c n t (.mbarrierWait l) := fun l hl =>
    hhead.before h (hl.trans hrunsk) (place_mbarrierWait_lt hl)
  by_cases hu : u = t
  · subst hu
    have hne : lin ≠ k := fun heq => hnot.2 ⟨rfl, heq⟩
    rw [hparity]
    simp only [ringEffect, ← hn, ← hd]
    by_cases hslot : lin % d = k % d
    · have hklin : k < lin := by
        rcases Nat.lt_or_gt_of_ne hne with hlt | hlt
        · exact absurd (hbefore lin hlt) hnot.1
        · exact hlt
      have hround : k + d ≤ lin := Loops.add_le_of_mod_eq hslot.symm hklin
      have hpos : 0 < d := depth_pos n
      have hlineq : lin = k + d := by
        by_contra hlineq
        have hlast : (lin - d) % d = lin % d := (Nat.mod_eq_sub_mod (by omega)).symm
        have hran' := hkeep (lin - d) (by omega) (hprev _ (by omega) hlast)
        exact hhead.not_ran (hran'.before h hrunsk (place_mbarrierWait_lt (by omega)))
      have hold := hinv u k hrunsk hhead.not_ran fun l hl _ => hbefore l hl
      rw [hslot, Function.update_self, hold, hlineq, Nat.add_div_right k hpos, xor_one_mod_two]
    · rw [Function.update_of_ne hslot]
      refine hinv u lin hlin hnot.1 fun l hl hmod => hkeep l ?_ (hprev l hl hmod)
      rintro rfl
      exact hslot hmod.symm
  · rw [hothers u hu]
    exact hinv u lin hlin hnot.1 fun l hl hmod =>
      (hprev l hl hmod).resolve_right fun heq => hu heq.1

/-- A step that waits for no phase barrier keeps the bits. -/
lemma ParityInv.of_same (hinv : ParityInv B c) (hepoch : c'.epoch .block = c.epoch .block)
    (hreg : ∀ u, c'.reg .block (.thread u) = c.reg .block (.thread u))
    (hran : ∀ u lin, Ran B c' (c.epoch .block) u (.mbarrierWait lin) ↔
      Ran B c (c.epoch .block) u (.mbarrierWait lin)) : ParityInv B c' := by
  intro u lin hlin hnot hprev
  rw [hepoch] at hlin hnot hprev ⊢
  simp only [hran] at hnot hprev
  rw [hreg]
  exact hinv u lin hlin hnot hprev

/-- In every reachable configuration the parity bits are right. -/
theorem parityInv (h : (ringMachine B rows tiles).Reachable m₀ c) : ParityInv B c := by
  induction h with
  | init => exact ParityInv.of_zero (fun _ => rfl) fun _ _ => not_ran_init
  | @step c c' h hstep ih =>
    cases ringStep h hstep with
    | thread t i head _ _ parity others epoch ran _ =>
      by_cases hwait : ∃ k, i = .mbarrierWait k
      · obtain ⟨k, rfl⟩ := hwait
        exact ih.wait h head parity others epoch ran
      · have hne : ∀ lin, i ≠ .mbarrierWait lin := fun lin heq => hwait ⟨lin, heq⟩
        refine ih.of_same epoch (fun u => ?_) fun u lin => ?_
        · by_cases hu : u = t
          · rw [hu, parity, effect_parity hne]
          · exact others u hu
        · rw [ran]
          exact or_iff_left fun heq => hne lin heq.2.2.symm
    | copy _ _ _ _ parity epoch ran _ => exact ih.of_same epoch parity fun _ _ => ran _ _ _
    | engine _ parity epoch ran _ => exact ih.of_same epoch parity fun _ _ => ran _ _ _
    | next _ _ parity epoch ran _ =>
      exact ParityInv.of_zero parity fun _ _ => not_ran_of_next epoch ran

end Parity

/-! ## Phase barriers -/

section Barriers

/-- The bytes of a weight tile that have not come in. -/
def missingBytes (B : RingBuild) (c : RingConfig) (n : ℕ) (w : Fin 2) (lin : ℕ) : Finset ℕ :=
  (Finset.range B.bShm).filter fun byte => ¬Landed c (.b n w lin byte)

/-- The weight tile of a step has been armed and has come in. -/
def Loaded (B : RingBuild) (c : RingConfig) (n : ℕ) (w : Fin 2) (lin : ℕ) : Prop :=
  Armed B c n w lin ∧ ∀ byte < B.bShm, Landed c (.b n w lin byte)

/-- A weight tile is the youngest of its slot. -/
def Youngest (B : RingBuild) (c : RingConfig) (n : ℕ) (w : Fin 2) (lin : ℕ) : Prop :=
  Armed B c n w lin ∧ ¬Armed B c n w (lin + B.depth n)

/-- What holds of the phase barriers and of what is in flight. -/
structure RingInv (B : RingBuild) (rows : ℕ → ℕ) (c : RingConfig) : Prop where
  /-- a slot that has not been armed in this phase waits for its first announcement -/
  fresh (hinit : Ran B c (c.epoch .block) 0 .mbarrierInit) (w : Fin 2) {lin : ℕ}
    (hlin : lin < B.depth (c.epoch .block)) (hnot : ¬Armed B c (c.epoch .block) w lin) :
    c.mem.bar w lin = PhaseBarrier.fresh
  /-- otherwise its barrier is in the phase of the youngest weight tile -/
  loading {w : Fin 2} {lin : ℕ} (hyoung : Youngest B c (c.epoch .block) w lin) :
    c.mem.bar w (lin % B.depth (c.epoch .block)) =
      PhaseBarrier.loading (lin / B.depth (c.epoch .block))
        (missingBytes B c (c.epoch .block) w lin).card
  /-- whoever is behind the wait of a step finds its weight tile -/
  waited {t : Tid} {lin byte : ℕ} (hwait : Ran B c (c.epoch .block) t (.mbarrierWait lin))
    (hbyte : byte < B.bShm) : Landed c (.b (c.epoch .block) t.wg lin byte)
  /-- no load is in flight from an earlier phase -/
  past {l : Load} (hissued : Issued B rows c l) (hlt : l.epoch < c.epoch .block) : Landed c l

/-- Nothing is missing when all bytes of the slot have landed. -/
lemma missingBytes_eq_empty_iff :
    missingBytes B c n w lin = ∅ ↔ ∀ byte < B.bShm, Landed c (.b n w lin byte) := by
  simp [missingBytes, Finset.filter_eq_empty_iff]

variable (h : (ringMachine B rows tiles).Reachable m₀ c)

include h in
/-- Before a weight tile is armed none of its bytes come in. -/
lemma missingBytes_of_not_armed (hnot : ¬Armed B c n w lin) :
    missingBytes B c n w lin = Finset.range B.bShm := by
  refine Finset.filter_true_of_mem fun byte _ hlanded => ?_
  exact hnot (Landed.issued h hlanded).1

include h in
/-- A slot has one youngest weight tile. -/
lemma Youngest.eq {k : ℕ} (hlin : Youngest B c n w lin) (hk : Youngest B c n w k)
    (hslot : lin % B.depth n = k % B.depth n) : lin = k := by
  rcases Nat.lt_trichotomy lin k with hlt | heq | hlt
  · exact absurd (hk.1.of_le h (Loops.add_le_of_mod_eq hslot hlt)) hlin.2
  · exact heq
  · exact absurd (hlin.1.of_le h (Loops.add_le_of_mod_eq hslot.symm hlt)) hk.2

include h in
/-- When a slot is armed again its weight tile has come in. -/
lemma RingInv.loaded_of_rearmed (hinv : RingInv B rows c)
    (ha : Armed B c (c.epoch .block) w (lin + B.depth (c.epoch .block))) :
    Loaded B c (c.epoch .block) w lin := by
  refine ⟨ha.of_le h (Nat.le_add_right _ _), fun byte hbyte => ?_⟩
  have hwait := ha.ran_mbarrierWait h (wg_wgLeader w)
  simpa using hinv.waited hwait hbyte

include h in
/-- A thread at the wait of a step carries the parity of the phase in which the slot holds the
weight tile of the step. -/
lemma Head.parity (hhead : Head c t (.mbarrierWait lin)) (hinv : ParityInv B c) :
    c.reg .block (.thread t) (lin % B.depth (c.epoch .block)) =
      lin / B.depth (c.epoch .block) % 2 := by
  have hlin : lin < B.steps (c.epoch .block) := (hhead.runs h).2
  refine hinv t lin hlin hhead.not_ran fun k hk _ => ?_
  exact hhead.before h (hk.trans hlin) (place_mbarrierWait_lt hk)

omit h in
/-- A step is armed before it begins. -/
lemma place_armTile_lt_base : B.place (.armTile (B.depth n) lin) < B.base lin := by
  have hdepth := depth_le (B := B) n
  have hpos := depth_pos (B := B) n
  simp only [RingBuild.place]
  split_ifs with hlt
  · have := le_base (B := B) lin
    omega
  · have := base_add_le (B := B) (show lin - B.depth n < lin by omega)
    omega

include h in
/-- A thread at a wait has used the slot in the round before. -/
lemma Head.before_round (hhead : Head c t (.mbarrierWait (lin + B.depth (c.epoch .block)))) :
    Armed B c (c.epoch .block) t.wg lin ∧ Ran B c (c.epoch .block) t (.mbarrierWait lin) := by
  have hpos := depth_pos (B := B) (c.epoch .block)
  have hrange : lin + B.depth (c.epoch .block) < B.steps (c.epoch .block) := (hhead.runs h).2
  have hlin : lin < B.steps (c.epoch .block) := by omega
  refine ⟨?_, hhead.before h hlin (place_mbarrierWait_lt (by omega))⟩
  have hwait : Ran B c (c.epoch .block) t (.wgmmaWait lin 0) := by
    refine hhead.before h ⟨hlin, B.mSubs_pos⟩ ?_
    have := base_add_le (B := B) (show lin < lin + B.depth (c.epoch .block) by omega)
    simp only [RingBuild.place]
    omega
  have hproduct := hwait.of_wgmmaWait h (wg_wgLeader t.wg)
  refine hproduct.before h (runs_armTile hlin) (place_armTile_lt_base.trans ?_)
  simp only [RingBuild.place]
  omega

include h in
/-- A slot that is waited for has not been armed again. -/
lemma Head.youngest (hhead : Head c t (.mbarrierWait lin))
    (ha : Armed B c (c.epoch .block) t.wg lin) : Youngest B c (c.epoch .block) t.wg lin :=
  ⟨ha, fun hagain => hhead.not_ran (hagain.ran_mbarrierWait h rfl)⟩

include h in
/-- The phase barrier that a thread waits for is in the phase of the step, or in the next one when
the weight tile of the step is there. -/
lemma RingInv.phase_of_head (hinv : RingInv B rows c) (hhead : Head c t (.mbarrierWait lin)) :
    (Loaded B c (c.epoch .block) t.wg lin → (c.mem.bar t.wg (lin % B.depth (c.epoch .block))).phase
      = lin / B.depth (c.epoch .block) + 1) ∧
    (¬Loaded B c (c.epoch .block) t.wg lin →
      (c.mem.bar t.wg (lin % B.depth (c.epoch .block))).phase =
        lin / B.depth (c.epoch .block)) := by
  set n := c.epoch .block
  set d := B.depth n with hd
  by_cases ha : Armed B c n t.wg lin
  · have hbar := hinv.loading (hhead.youngest h ha)
    constructor
    · rintro ⟨-, hall⟩
      rw [hbar, loading_phase, missingBytes_eq_empty_iff.mpr hall, Finset.card_empty, if_pos rfl]
    · intro hnot
      have hmissing : (missingBytes B c n t.wg lin).card ≠ 0 := fun hzero =>
        hnot ⟨ha, missingBytes_eq_empty_iff.mp (Finset.card_eq_zero.mp hzero)⟩
      rw [hbar, loading_phase, if_neg hmissing]
  · refine ⟨fun hloaded => absurd hloaded.1 ha, fun _ => ?_⟩
    by_cases hfirst : lin < d
    · have hinit := hhead.ran_mbarrierInit h one_lt_place_mbarrierWait
      rw [Nat.mod_eq_of_lt hfirst, hinv.fresh hinit t.wg hfirst ha, Nat.div_eq_of_lt hfirst]
      rfl
    · obtain ⟨k, rfl⟩ := Nat.exists_eq_add_of_le' (Nat.not_lt.mp hfirst)
      obtain ⟨hround, hwait⟩ := hhead.before_round h
      have hall := missingBytes_eq_empty_iff.mpr fun byte hbyte => hinv.waited hwait hbyte
      rw [Nat.add_mod_right, hinv.loading ⟨hround, ha⟩, hall, loading_phase, Finset.card_empty,
        if_pos rfl, Nat.add_div_right k (depth_pos n)]

include h in
/-- A thread gets through the wait of a step when the weight tile of the step is there. -/
lemma RingInv.tryWaitParity_iff (hinv : RingInv B rows c) (hparity : ParityInv B c)
    (hhead : Head c t (.mbarrierWait lin)) :
    tryWaitParity (c.mem.bar t.wg (lin % B.depth (c.epoch .block)))
        (c.reg .block (.thread t) (lin % B.depth (c.epoch .block))) = true ↔
      Loaded B c (c.epoch .block) t.wg lin := by
  obtain ⟨hloaded, hnot⟩ := hinv.phase_of_head h hhead
  rw [hhead.parity h hparity]
  by_cases hl : Loaded B c (c.epoch .block) t.wg lin
  · simp only [PhaseBarrier.tryWaitParity_iff (Or.inr (hloaded hl)), hloaded hl, hl]
  · have hphase := hnot hl
    simp only [PhaseBarrier.tryWaitParity_iff (Or.inl hphase), hphase, hl, iff_false]
    omega

/-! ### What keeps the invariant -/

omit h in
/-- A slot of one warpgroup is written. -/
lemma update_slot {f : Fin 2 → ℕ → State} {slot : ℕ} {b : State} (v : Fin 2) (k : ℕ) :
    Function.update f w (Function.update (f w) slot b) v k =
      if v = w ∧ k = slot then b else f v k := by
  by_cases hv : v = w
  · subst hv
    by_cases hk : k = slot <;> simp [hk]
  · simp [hv]

omit h in
/-- A load was issued before when its thread had come as far. -/
lemma Issued.of_past {l : Load} (hl : Issued B rows c' l)
    (hran : ∀ u j, Ran B c' l.epoch u j → Ran B c l.epoch u j) : Issued B rows c l := by
  cases l with
  | a n t g it => exact ⟨hran _ _ hl.1, hl.2⟩
  | b n w lin byte => exact ⟨hran _ _ hl.1, hl.2⟩

omit h in
/-- A step that touches no phase barrier. -/
lemma RingInv.frame (hinv : RingInv B rows c) (hepoch : c'.epoch .block = c.epoch .block)
    (hbar : c'.mem.bar = c.mem.bar)
    (hinit : Ran B c' (c.epoch .block) 0 .mbarrierInit → Ran B c (c.epoch .block) 0 .mbarrierInit)
    (harmed : ∀ w lin, Armed B c' (c.epoch .block) w lin ↔ Armed B c (c.epoch .block) w lin)
    (hlanded : ∀ n w lin byte, Landed c' (.b n w lin byte) ↔ Landed c (.b n w lin byte))
    (hwaited : ∀ t lin byte, Ran B c' (c.epoch .block) t (.mbarrierWait lin) → byte < B.bShm →
      Landed c (.b (c.epoch .block) t.wg lin byte))
    (hpast : ∀ l, Issued B rows c' l → l.epoch < c.epoch .block → Landed c' l) :
    RingInv B rows c' := by
  constructor
  · intro hi w lin hlin hnot
    rw [hepoch] at hi hlin hnot
    rw [hbar]
    exact hinv.fresh (hinit hi) w hlin fun ha => hnot ((harmed w lin).mpr ha)
  · intro w lin hyoung
    rw [hepoch] at hyoung ⊢
    have hyoung' : Youngest B c (c.epoch .block) w lin :=
      ⟨(harmed w lin).mp hyoung.1, fun ha => hyoung.2 ((harmed _ _).mpr ha)⟩
    have hmissing : missingBytes B c' (c.epoch .block) w lin =
        missingBytes B c (c.epoch .block) w lin := by
      simp only [missingBytes, hlanded]
    rw [hbar, hmissing]
    exact hinv.loading hyoung'
  · intro t lin byte hwait hbyte
    rw [hepoch] at hwait ⊢
    exact (hlanded _ _ _ _).mpr (hwaited t lin byte hwait hbyte)
  · intro l hissued hlt
    rw [hepoch] at hlt
    exact hpast l hissued hlt

omit h in
/-- An operation of a thread that is no wait leaves only the phase barriers to be looked at. -/
lemma RingInv.of_bars (hinv : RingInv B rows c) (hepoch : c'.epoch .block = c.epoch .block)
    (hi : ∀ lin, i ≠ .mbarrierWait lin)
    (hran : ∀ n u j, Ran B c' n u j ↔ Ran B c n u j ∨ n = c.epoch .block ∧ u = t ∧ j = i)
    (hlanded : ∀ l, Landed c' l ↔ Landed c l)
    (hfresh : ∀ w lin, Ran B c' (c.epoch .block) 0 .mbarrierInit →
      lin < B.depth (c.epoch .block) → ¬Armed B c' (c.epoch .block) w lin →
        c'.mem.bar w lin = PhaseBarrier.fresh)
    (hloading : ∀ w lin, Youngest B c' (c.epoch .block) w lin →
      c'.mem.bar w (lin % B.depth (c.epoch .block)) =
        PhaseBarrier.loading (lin / B.depth (c.epoch .block))
          (missingBytes B c (c.epoch .block) w lin).card) : RingInv B rows c' := by
  constructor
  · intro hinit w lin hlin hnot
    rw [hepoch] at hinit hlin hnot
    exact hfresh w lin hinit hlin hnot
  · intro w lin hyoung
    rw [hepoch] at hyoung ⊢
    have hmissing : missingBytes B c' (c.epoch .block) w lin =
        missingBytes B c (c.epoch .block) w lin := by
      simp only [missingBytes, hlanded]
    rw [hmissing]
    exact hloading w lin hyoung
  · intro u lin byte hwait hbyte
    rw [hepoch] at hwait ⊢
    have hwait' := ((hran _ _ _).mp hwait).resolve_right fun heq => hi lin heq.2.2.symm
    exact (hlanded _).mpr (hinv.waited hwait' hbyte)
  · intro l hissued hlt
    rw [hepoch] at hlt
    refine (hlanded l).mpr (hinv.past (hissued.of_past fun u j hj => ?_) hlt)
    exact ((hran _ _ _).mp hj).resolve_right fun heq => hlt.ne heq.1

include h in
/-- The initialization. -/
lemma RingInv.mbarrierInit (hinv : RingInv B rows c) (hhead : Head c t .mbarrierInit)
    (hmem : c'.mem = (ringEffect B rows c .block (.thread t) .mbarrierInit).1)
    (hepoch : c'.epoch .block = c.epoch .block)
    (hran : ∀ n u j, Ran B c' n u j ↔
      Ran B c n u j ∨ n = c.epoch .block ∧ u = t ∧ j = .mbarrierInit)
    (hlanded : ∀ l, Landed c' l ↔ Landed c l) : RingInv B rows c' := by
  obtain rfl : t = 0 := Fin.ext (hhead.runs h).2
  refine hinv.of_bars hepoch (by simp) hran hlanded (fun w lin _ hlin _ => ?_)
    fun w lin hyoung => ?_
  · rw [hmem]
    exact if_pos hlin
  · have ha := ((hran _ _ _).mp hyoung.1).resolve_right fun heq => nomatch heq.2.2
    exact absurd (ha.ran_mbarrierInit h one_lt_place_armTile) hhead.not_ran

include h in
/-- At its arming a slot is fresh, or what it held before has come in. -/
lemma RingInv.bar_of_arming (h' : (ringMachine B rows tiles).Reachable m₀ c')
    (hinv : RingInv B rows c) (hhead : Head c (wgLeader w) (.armTile (B.depth n) lin))
    (hn : c.epoch .block = n) (harmed : Armed B c' n w lin)
    (hwaited : ∀ u k, Ran B c' n u (.mbarrierWait k) → Ran B c n u (.mbarrierWait k)) (k : ℕ) :
    arriveExpectTx (c.mem.bar w (lin % B.depth n)) k =
      PhaseBarrier.loading (lin / B.depth n) k := by
  subst hn
  have hpos := depth_pos (B := B) (c.epoch .block)
  have hnew : ¬Armed B c (c.epoch .block) w lin := hhead.not_ran
  by_cases hfirst : lin < B.depth (c.epoch .block)
  · have hinit := hhead.ran_mbarrierInit h one_lt_place_armTile
    rw [Nat.mod_eq_of_lt hfirst, hinv.fresh hinit w hfirst hnew, Nat.div_eq_of_lt hfirst,
      arriveExpectTx_fresh]
  · obtain ⟨lin, rfl⟩ := Nat.exists_eq_add_of_le' (Nat.not_lt.mp hfirst)
    have hround : Armed B c (c.epoch .block) w lin :=
      hhead.before h (runs_armTile (by have := harmed.lt; omega)) (place_armTile_lt (by omega))
    have hall := missingBytes_eq_empty_iff.mpr fun byte hbyte => hinv.waited
      (hwaited _ _ (harmed.ran_mbarrierWait h' (wg_wgLeader w))) hbyte
    rw [wg_wgLeader] at hall
    rw [Nat.add_mod_right, hinv.loading ⟨hround, hnew⟩, hall, Finset.card_empty,
      arriveExpectTx_loading, Nat.add_div_right lin hpos]

include h in
/-- A leader arms a weight tile. -/
lemma RingInv.armTile (h' : (ringMachine B rows tiles).Reachable m₀ c')
    (hinv : RingInv B rows c) {depth : ℕ} (hhead : Head c t (.armTile depth lin))
    (hmem : c'.mem = (ringEffect B rows c .block (.thread t) (.armTile depth lin)).1)
    (hepoch : c'.epoch .block = c.epoch .block)
    (hran : ∀ n u j, Ran B c' n u j ↔
      Ran B c n u j ∨ n = c.epoch .block ∧ u = t ∧ j = .armTile depth lin)
    (hlanded : ∀ l, Landed c' l ↔ Landed c l) : RingInv B rows c' := by
  obtain ⟨-, ht, rfl, -⟩ := hhead.runs h
  obtain ⟨w, rfl⟩ : ∃ w, t = wgLeader w := ⟨t.wg, ht⟩
  have hbar : ∀ v k, c'.mem.bar v k = if v = w ∧ k = lin % B.depth (c.epoch .block) then
      arriveExpectTx (c.mem.bar w (lin % B.depth (c.epoch .block))) B.bShm
        else c.mem.bar v k := by
    intro v k
    rw [hmem]
    simp only [ringEffect, wg_wgLeader]
    exact update_slot v k
  set n := c.epoch .block with hn
  set d := B.depth n with hd
  have harmed : ∀ v k, Armed B c' n v k ↔ Armed B c n v k ∨ v = w ∧ k = lin := by
    intro v k
    unfold Armed
    rw [hran]
    refine or_congr_right ⟨?_, ?_⟩
    · rintro ⟨-, hv, hk⟩
      exact ⟨by rw [← wg_wgLeader v, hv, wg_wgLeader], by injection hk⟩
    · rintro ⟨rfl, rfl⟩
      exact ⟨rfl, rfl, rfl⟩
  have hnew : ¬Armed B c n w lin := hhead.not_ran
  have hyoung : Youngest B c' n w lin := by
    refine ⟨(harmed _ _).mpr (Or.inr ⟨rfl, rfl⟩), fun hagain => ?_⟩
    rcases (harmed _ _).mp hagain with ha | ⟨-, heq⟩
    · exact hnew (ha.of_le h (Nat.le_add_right _ _))
    · have := depth_pos (B := B) n
      omega
  refine hinv.of_bars hepoch (by simp) hran hlanded (fun v k hinit hk hnot => ?_)
    fun v k hk => ?_
  · have hinit' := ((hran _ _ _).mp hinit).resolve_right fun heq => nomatch heq.2.2
    have hother : ¬(v = w ∧ k = lin % d) := by
      rintro ⟨rfl, rfl⟩
      exact hnot (hyoung.1.of_le h' (Nat.mod_le _ _))
    rw [hbar, if_neg hother]
    exact hinv.fresh hinit' v hk fun ha => hnot ((harmed v k).mpr (Or.inl ha))
  · rw [hbar]
    by_cases hself : v = w ∧ k = lin
    · obtain ⟨rfl, rfl⟩ := hself
      rw [if_pos ⟨rfl, rfl⟩, missingBytes_of_not_armed h hnew, Finset.card_range]
      refine hinv.bar_of_arming h h' hhead rfl hyoung.1 (fun u l hwait => ?_) B.bShm
      exact ((hran _ _ _).mp hwait).resolve_right fun heq => nomatch heq.2.2
    · have hother : ¬(v = w ∧ k % d = lin % d) := by
        rintro ⟨rfl, hslot⟩
        exact hself ⟨rfl, hk.eq h' hyoung hslot⟩
      rw [if_neg hother]
      refine hinv.loading ⟨((harmed v k).mp hk.1).resolve_right hself, fun ha => ?_⟩
      exact hk.2 ((harmed _ _).mpr (Or.inl ha))

include h in
/-- A byte that comes in belongs to the youngest weight tile of its slot, in this phase. -/
lemma RingInv.youngest_of_missing (hinv : RingInv B rows c) {byte : ℕ}
    (hissued : Issued B rows c (.b n w lin byte)) (hmissing : ¬Landed c (.b n w lin byte)) :
    n = c.epoch .block ∧ Youngest B c n w lin := by
  have hn : n = c.epoch .block := by
    refine le_antisymm hissued.epoch_le (not_lt.mp fun hlt => hmissing ?_)
    exact hinv.past hissued hlt
  subst hn
  refine ⟨rfl, hissued.1, fun hagain => hmissing ?_⟩
  exact (hinv.loaded_of_rearmed h hagain).2 byte hissued.2

include h in
/-- A byte comes in. -/
lemma RingInv.land {byte : ℕ} (hinv : RingInv B rows c)
    (hissued : Issued B rows c (.b n w lin byte)) (hmissing : ¬Landed c (.b n w lin byte))
    (hmem : c'.mem =
      (ringEffect B rows c .engine (.copy (.b n w lin byte)) (.land (.b n w lin byte))).1)
    (hepoch : c'.epoch .block = c.epoch .block) (hran : ∀ n u j, Ran B c' n u j ↔ Ran B c n u j)
    (hlanded : ∀ l, Landed c' l ↔ Landed c l ∨ l = .b n w lin byte) : RingInv B rows c' := by
  obtain ⟨rfl, hyoung⟩ := hinv.youngest_of_missing h hissued hmissing
  set n := c.epoch .block with hn
  set d := B.depth n with hd
  have harmed : ∀ v k, Armed B c' n v k ↔ Armed B c n v k := fun v k => hran _ _ _
  have hbar : ∀ v k, c'.mem.bar v k = if v = w ∧ k = lin % d then
      completeTx (c.mem.bar w (lin % d)) else c.mem.bar v k := by
    intro v k
    rw [hmem]
    exact update_slot v k
  have hless : missingBytes B c n w lin = insert byte (missingBytes B c' n w lin) := by
    ext b
    simp only [missingBytes, Finset.mem_insert, Finset.mem_filter, Finset.mem_range, hlanded,
      Load.b.injEq, true_and, not_or]
    by_cases hb : b = byte
    · simp [hb, hissued.2, hmissing]
    · simp [hb]
  have hcard : (missingBytes B c n w lin).card = (missingBytes B c' n w lin).card + 1 := by
    rw [hless]
    exact Finset.card_insert_of_notMem (by simp [missingBytes, hlanded])
  constructor
  · intro hinit v k hk hnot
    rw [hepoch] at hinit hk hnot
    have hnot' : ¬Armed B c n v k := fun ha => hnot ((harmed v k).mpr ha)
    have hother : ¬(v = w ∧ k = lin % d) := by
      rintro ⟨rfl, rfl⟩
      exact hnot' (hyoung.1.of_le h (Nat.mod_le _ _))
    rw [hbar, if_neg hother]
    exact hinv.fresh ((hran _ _ _).mp hinit) v hk hnot'
  · intro v k hk
    rw [hepoch] at hk ⊢
    have hk' : Youngest B c n v k :=
      ⟨(harmed v k).mp hk.1, fun ha => hk.2 ((harmed _ _).mpr ha)⟩
    rw [hbar]
    by_cases hself : v = w ∧ k = lin
    · obtain ⟨rfl, rfl⟩ := hself
      rw [if_pos ⟨rfl, rfl⟩, hinv.loading hk', hcard, completeTx_loading]
    · have hother : ¬(v = w ∧ k % d = lin % d) := by
        rintro ⟨rfl, hslot⟩
        exact hself ⟨rfl, hk'.eq h hyoung hslot⟩
      have hsame : missingBytes B c' n v k = missingBytes B c n v k := by
        refine Finset.filter_congr fun b _ => not_congr ?_
        rw [hlanded]
        exact or_iff_left fun heq => hself ⟨by injection heq, by injection heq⟩
      rw [if_neg hother, hsame]
      exact hinv.loading hk'
  · intro t k b hwait hb
    rw [hepoch] at hwait ⊢
    exact (hlanded _).mpr (Or.inl (hinv.waited ((hran _ _ _).mp hwait) hb))
  · intro l hl hlt
    rw [hepoch] at hlt
    exact (hlanded l).mpr (Or.inl (hinv.past (hl.of_past fun u j hj => (hran _ _ _).mp hj) hlt))

include h in
/-- When all threads are through with a phase its loads have come in. -/
lemma RingInv.landed_of_idle (hinv : RingInv B rows c)
    (hidle : ∀ t, c.rest .block (.thread t) = []) {l : Load} (hissued : Issued B rows c l) :
    Landed c l := by
  rcases Nat.eq_or_lt_of_le hissued.epoch_le with heq | hlt
  · cases l with
    | a n t g it =>
      obtain rfl : n = c.epoch .block := heq
      obtain ⟨hran, hit, hrow⟩ := hissued
      obtain ⟨hpos, hup, hg⟩ := hran.runs
      exact landed_of_cpaDrain h (Ran.of_idle (hidle t) hpos (i := .cpaDrain) hup) hg hit hrow
    | b n w lin byte =>
      obtain rfl : n = c.epoch .block := heq
      obtain ⟨harmed, hbyte⟩ := hissued
      have hwait := Ran.of_idle (i := .mbarrierWait lin) (hidle (wgLeader w)) harmed.runs.1
        (Armed.lt harmed)
      simpa using hinv.waited hwait hbyte
  · exact hinv.past hissued hlt

include h in
/-- The block goes on to its next phase. -/
lemma RingInv.next (hinv : RingInv B rows c) (hidle : ∀ t, c.rest .block (.thread t) = [])
    (hepoch : c'.epoch .block = c.epoch .block + 1) (hran : ∀ n u j, Ran B c' n u j ↔ Ran B c n u j)
    (hlanded : ∀ l, Landed c' l ↔ Landed c l) : RingInv B rows c' := by
  refine ⟨fun hinit => absurd hinit (not_ran_of_next hepoch hran),
    fun hyoung => absurd hyoung.1 (not_ran_of_next hepoch hran),
    fun hwait => absurd hwait (not_ran_of_next hepoch hran), fun {l} hissued _ => ?_⟩
  exact (hlanded l).mpr (hinv.landed_of_idle h hidle (hissued.of_past fun u j => (hran _ u j).mp))

/-- In every reachable configuration the phase barriers are right. -/
theorem ringInv (h : (ringMachine B rows tiles).Reachable m₀ c) : RingInv B rows c := by
  induction h with
  | init =>
    exact ⟨fun hinit => absurd hinit not_ran_init, fun hyoung => absurd hyoung.1 not_ran_init,
      fun hwait => absurd hwait not_ran_init, fun _ hlt => absurd hlt (Nat.not_lt_zero _)⟩
  | @step c c' h hstep ih =>
    have h' := h.step hstep
    cases ringStep h hstep with
    | thread t i head enabled mem parity others epoch ran landed =>
      have hpast : ∀ l, Issued B rows c' l → l.epoch < c.epoch .block → Landed c' l := by
        intro l hl hlt
        refine (landed l).mpr (ih.past (hl.of_past fun u j hj => ?_) hlt)
        exact ((ran _ _ _).mp hj).resolve_right fun heq => hlt.ne heq.1
      cases i with
      | mbarrierInit => exact ih.mbarrierInit h head mem epoch ran landed
      | armTile depth lin => exact ih.armTile h h' head mem epoch ran landed
      | mbarrierWait k =>
        have hloaded := (ih.tryWaitParity_iff h (parityInv h) head).mp enabled
        refine ih.frame epoch (by rw [mem]; rfl) (fun hinit => ?_) (fun w lin => ?_)
          (fun _ _ _ _ => landed _) (fun u lin byte hwait hbyte => ?_) hpast
        · exact ((ran _ _ _).mp hinit).resolve_right fun heq => nomatch heq.2.2
        · exact (ran _ _ _).trans (or_iff_left fun heq => nomatch heq.2.2)
        · rcases (ran _ _ _).mp hwait with hold | ⟨-, rfl, heq⟩
          · exact ih.waited hold hbyte
          · obtain rfl : lin = k := by injection heq
            exact hloaded.2 byte hbyte
      | _ =>
        refine ih.frame epoch (by rw [mem]; rfl) (fun hinit => ?_) (fun w lin => ?_)
          (fun _ _ _ _ => landed _) (fun u lin byte hwait hbyte => ?_) hpast
        · exact ((ran _ _ _).mp hinit).resolve_right fun heq => nomatch heq.2.2
        · exact (ran _ _ _).trans (or_iff_left fun heq => nomatch heq.2.2)
        · exact ih.waited (((ran _ _ _).mp hwait).resolve_right fun heq => nomatch heq.2.2) hbyte
    | copy l issued missing mem parity epoch ran landed =>
      cases l with
      | a n t g it =>
        refine ih.frame epoch (by rw [mem]; rfl) (ran _ _ _).mp (fun w lin => ran _ _ _)
          (fun _ _ _ _ => (landed _).trans (or_iff_left nofun))
          (fun u lin byte hwait => ih.waited ((ran _ _ _).mp hwait)) fun l hl hlt => ?_
        exact (landed l).mpr (Or.inl (ih.past (hl.of_past fun u j => (ran _ u j).mp) hlt))
      | b n w lin byte => exact ih.land h issued missing mem epoch ran landed
    | engine mem parity epoch ran landed =>
      refine ih.frame epoch (by rw [mem]) (ran _ _ _).mp (fun w lin => ran _ _ _)
        (fun _ _ _ _ => landed _) (fun u lin byte hwait => ih.waited ((ran _ _ _).mp hwait))
        fun l hl hlt => ?_
      exact (landed l).mpr (ih.past (hl.of_past fun u j => (ran _ u j).mp) hlt)
    | next idle mem parity epoch ran landed => exact ih.next h idle epoch ran landed

end Barriers

/-! ## Contents of the rings -/

section Contents

variable (h : (ringMachine B rows tiles).Reachable m₀ c)

/-- A chunk of a staging is in its slot: it has come in, or was stored as zeros. -/
def ChunkHeld (B : RingBuild) (rows : ℕ → ℕ) (c : RingConfig) (n : ℕ) (t : Tid) (g it : ℕ) : Prop :=
  Ran B c n t (.stageA g) ∧ (chunkRow t it < rows (RingBuild.tileOf n) → Landed c (.a n t g it))

/-- Until the next loads of their slots are issued, the chunks and bytes that have come in are
those of their staging and of their weight tile. -/
structure RingContents (B : RingBuild) (rows : ℕ → ℕ) (c : RingConfig) : Prop where
  chunk {t : Tid} {g it : ℕ} (hit : it < B.aIters)
    (hheld : ChunkHeld B rows c (c.epoch .block) t g it)
    (hnext : ¬Ran B c (c.epoch .block) t (.stageA (g + B.aStages))) :
    c.mem.aRing (g % B.aStages) t it = B.activationBlock (c.epoch .block) g
  byte {w : Fin 2} {lin byte : ℕ} (hlanded : Landed c (.b (c.epoch .block) w lin byte))
    (hnext : ¬Armed B c (c.epoch .block) w (lin + B.depth (c.epoch .block))) :
    c.mem.bRing w (lin % B.depth (c.epoch .block)) byte = B.weightTile (c.epoch .block) w lin

/-- The stagings are issued in order. -/
lemma place_stageA_lt_stageA {k : ℕ} (hlt : g < k) :
    B.place (.stageA g) < B.place (.stageA k) := by
  simp only [RingBuild.place]
  split_ifs with hg hk
  · omega
  · have := le_base (B := B) (k - (B.aStages - 1))
    omega
  · omega
  · have := base_add_le (B := B) (show g - (B.aStages - 1) < k - (B.aStages - 1) by omega)
    omega

include h in
/-- A thread stages its groups in order. -/
lemma Ran.stageA_of_le {k : ℕ} (hk : Ran B c n t (.stageA k)) (hle : g ≤ k) :
    Ran B c n t (.stageA g) := by
  rcases Nat.eq_or_lt_of_le hle with rfl | hlt
  · exact hk
  · obtain ⟨-, hup, hrange⟩ := hk.runs
    exact hk.before h ⟨hup, hlt.trans hrange⟩ (place_stageA_lt_stageA hlt)

include h in
/-- Two stagings of one slot, neither of which has been followed by another, are one. -/
lemma eq_of_youngest_stageA {k : ℕ} (hg : Ran B c n t (.stageA g)) (hk : Ran B c n t (.stageA k))
    (hgnext : ¬Ran B c n t (.stageA (g + B.aStages)))
    (hknext : ¬Ran B c n t (.stageA (k + B.aStages))) (hslot : g % B.aStages = k % B.aStages) :
    g = k := by
  rcases Nat.lt_trichotomy g k with hlt | heq | hlt
  · exact absurd (hk.stageA_of_le h (Loops.add_le_of_mod_eq hslot hlt)) hgnext
  · exact heq
  · exact absurd (hg.stageA_of_le h (Loops.add_le_of_mod_eq hslot.symm hlt)) hknext

include h in
/-- A slot is staged again when its chunks have come in. -/
lemma landed_of_restaged (hran : Ran B c n t (.stageA (g + B.aStages))) (hit : it < B.aIters)
    (hrow : chunkRow t it < rows (RingBuild.tileOf n)) : Landed c (.a n t g it) := by
  have hstages := B.three_le_aStages
  obtain ⟨-, hup, hrange⟩ := hran.runs
  have hwait : Ran B c n t (.cpaWait (g + 1)) := by
    refine hran.before h ⟨hup, by omega⟩ ?_
    simp only [RingBuild.place, if_neg (show ¬g + B.aStages < B.aStages - 1 by omega),
      show g + B.aStages - (B.aStages - 1) = g + 1 by omega]
    omega
  exact landed_of_cpaWait h hwait (Nat.le_succ g) hit hrow

omit h in
/-- A step of a thread that stages nothing. -/
lemma RingContents.frame (hinv : RingContents B rows c) (hi : ∀ g, i ≠ .stageA g)
    (hmem : c'.mem = (ringEffect B rows c .block (.thread t) i).1)
    (hepoch : c'.epoch .block = c.epoch .block)
    (hran : ∀ n u j, Ran B c' n u j ↔ Ran B c n u j ∨ n = c.epoch .block ∧ u = t ∧ j = i)
    (hlanded : ∀ l, Landed c' l ↔ Landed c l) : RingContents B rows c' := by
  have hring : c'.mem.aRing = c.mem.aRing ∧ c'.mem.bRing = c.mem.bRing := by
    rw [hmem]
    cases i with
    | stageA g => exact absurd rfl (hi g)
    | _ => exact ⟨rfl, rfl⟩
  constructor
  · intro u g it hit hheld hnext
    rw [hepoch] at hheld hnext ⊢
    rw [hring.1]
    refine hinv.chunk hit ⟨?_, fun hrow => (hlanded _).mp (hheld.2 hrow)⟩
      fun hold => hnext ((hran _ _ _).mpr (Or.inl hold))
    exact ((hran _ _ _).mp hheld.1).resolve_right fun heq => hi g heq.2.2.symm
  · intro w lin byte hl hnext
    rw [hepoch] at hl hnext ⊢
    rw [hring.2]
    exact hinv.byte ((hlanded _).mp hl) fun ha => hnext ((hran _ _ _).mpr (Or.inl ha))

include h in
/-- A thread stages its chunks. -/
lemma RingContents.stageA {k : ℕ} (h' : (ringMachine B rows tiles).Reachable m₀ c')
    (hinv : RingContents B rows c) (hhead : Head c t (.stageA k))
    (hmem : c'.mem = (ringEffect B rows c .block (.thread t) (.stageA k)).1)
    (hepoch : c'.epoch .block = c.epoch .block)
    (hran : ∀ n u j, Ran B c' n u j ↔
      Ran B c n u j ∨ n = c.epoch .block ∧ u = t ∧ j = .stageA k)
    (hlanded : ∀ l, Landed c' l ↔ Landed c l) : RingContents B rows c' := by
  set n := c.epoch .block with hn
  have hknext : ¬Ran B c' n t (.stageA (k + B.aStages)) := by
    intro hagain
    rcases (hran _ _ _).mp hagain with hold | ⟨-, -, heq⟩
    · exact hhead.not_ran (hold.stageA_of_le h (Nat.le_add_right _ _))
    · have hstages := B.three_le_aStages
      have : k + B.aStages = k := by injection heq
      omega
  constructor
  · intro u g it hit hheld hnext
    rw [hepoch] at hheld hnext ⊢
    have hring : c'.mem.aRing (g % B.aStages) u it = if g % B.aStages = k % B.aStages ∧ u = t ∧
        it < B.aIters ∧ rows (RingBuild.tileOf n) ≤ chunkRow t it then B.activationBlock n k
        else c.mem.aRing (g % B.aStages) u it := by
      rw [hmem]
      rfl
    rw [hring]
    split_ifs with hstored
    · obtain ⟨hslot, rfl, -, -⟩ := hstored
      have hk : Ran B c' n u (.stageA k) := (hran _ _ _).mpr (Or.inr ⟨rfl, rfl, rfl⟩)
      rw [eq_of_youngest_stageA h' hheld.1 hk hnext hknext hslot]
    · refine hinv.chunk hit ⟨?_, fun hrow => (hlanded _).mp (hheld.2 hrow)⟩
        fun hold => hnext ((hran _ _ _).mpr (Or.inl hold))
      rcases (hran _ _ _).mp hheld.1 with hold | ⟨-, rfl, heq⟩
      · exact hold
      · obtain rfl : g = k := by injection heq
        have hrow : chunkRow u it < rows (RingBuild.tileOf n) := by
          by_contra hrow
          exact hstored ⟨rfl, rfl, hit, Nat.not_lt.mp hrow⟩
        exact (Landed.issued h ((hlanded _).mp (hheld.2 hrow))).1
  · intro w lin byte hl hnext
    rw [hepoch] at hl hnext ⊢
    rw [show c'.mem.bRing = c.mem.bRing by rw [hmem]; rfl]
    exact hinv.byte ((hlanded _).mp hl) fun ha => hnext ((hran _ _ _).mpr (Or.inl ha))

include h in
/-- A chunk comes in. -/
lemma RingContents.landChunk {k j : ℕ} (hinv : RingContents B rows c) (hrings : RingInv B rows c)
    (hissued : Issued B rows c (.a n t k j)) (hmissing : ¬Landed c (.a n t k j))
    (hmem : c'.mem = (ringEffect B rows c .engine (.copy (.a n t k j)) (.land (.a n t k j))).1)
    (hepoch : c'.epoch .block = c.epoch .block) (hran : ∀ n u j, Ran B c' n u j ↔ Ran B c n u j)
    (hlanded : ∀ l, Landed c' l ↔ Landed c l ∨ l = .a n t k j) : RingContents B rows c' := by
  obtain rfl : n = c.epoch .block := by
    refine le_antisymm hissued.epoch_le (not_lt.mp fun hlt => hmissing ?_)
    exact hrings.past hissued hlt
  set n := c.epoch .block with hn
  obtain ⟨hk, hj, hrow⟩ := hissued
  have hknext : ¬Ran B c n t (.stageA (k + B.aStages)) := fun hagain =>
    hmissing (landed_of_restaged h hagain hj hrow)
  constructor
  · intro u g it hit hheld hnext
    rw [hepoch] at hheld hnext ⊢
    have hg := (hran _ _ _).mp hheld.1
    have hgnext : ¬Ran B c n u (.stageA (g + B.aStages)) := fun hold =>
      hnext ((hran _ _ _).mpr hold)
    have hring : c'.mem.aRing (g % B.aStages) u it = if g % B.aStages = k % B.aStages ∧ u = t ∧
        it = j then B.activationBlock n k else c.mem.aRing (g % B.aStages) u it := by
      rw [hmem]
      rfl
    rw [hring]
    split_ifs with hcame
    · obtain ⟨hslot, rfl, rfl⟩ := hcame
      rw [eq_of_youngest_stageA h hg hk hgnext hknext hslot]
    · refine hinv.chunk hit ⟨hg, fun hlive => ?_⟩ hgnext
      refine ((hlanded _).mp (hheld.2 hlive)).resolve_right fun heq => hcame ?_
      injection heq with _ hu hgk hitj
      exact ⟨by rw [hgk], hu, hitj⟩
  · intro w lin byte hl hnext
    rw [hepoch] at hl hnext ⊢
    rw [show c'.mem.bRing = c.mem.bRing by rw [hmem]; rfl]
    refine hinv.byte (((hlanded _).mp hl).resolve_right nofun) fun ha => hnext ?_
    exact (hran _ _ _).mpr ha

include h in
/-- A byte comes in. -/
lemma RingContents.landByte {k b : ℕ} (hinv : RingContents B rows c) (hrings : RingInv B rows c)
    (hissued : Issued B rows c (.b n w k b)) (hmissing : ¬Landed c (.b n w k b))
    (hmem : c'.mem = (ringEffect B rows c .engine (.copy (.b n w k b)) (.land (.b n w k b))).1)
    (hepoch : c'.epoch .block = c.epoch .block) (hran : ∀ n u j, Ran B c' n u j ↔ Ran B c n u j)
    (hlanded : ∀ l, Landed c' l ↔ Landed c l ∨ l = .b n w k b) : RingContents B rows c' := by
  obtain ⟨rfl, hyoung⟩ := hrings.youngest_of_missing h hissued hmissing
  set n := c.epoch .block with hn
  constructor
  · intro u g it hit hheld hnext
    rw [hepoch] at hheld hnext ⊢
    rw [show c'.mem.aRing = c.mem.aRing by rw [hmem]; rfl]
    refine hinv.chunk hit ⟨(hran _ _ _).mp hheld.1, fun hrow => ?_⟩
      fun hold => hnext ((hran _ _ _).mpr hold)
    exact ((hlanded _).mp (hheld.2 hrow)).resolve_right nofun
  · intro v lin byte hl hnext
    rw [hepoch] at hl hnext ⊢
    have hnext' : ¬Armed B c n v (lin + B.depth n) := fun ha => hnext ((hran _ _ _).mpr ha)
    have hring : c'.mem.bRing v (lin % B.depth n) byte = if v = w ∧
        lin % B.depth n = k % B.depth n ∧ byte = b then B.weightTile n w k
        else c.mem.bRing v (lin % B.depth n) byte := by
      rw [hmem]
      rfl
    rw [hring]
    split_ifs with hcame
    · obtain ⟨rfl, hslot, rfl⟩ := hcame
      have harmed : Armed B c n v lin := by
        rcases (hlanded _).mp hl with hl | heq
        · exact (Landed.issued h hl).1
        · obtain rfl : lin = k := by injection heq
          exact hyoung.1
      rw [Youngest.eq h ⟨harmed, hnext'⟩ hyoung hslot]
    · refine hinv.byte (((hlanded _).mp hl).resolve_right fun heq => hcame ?_) hnext'
      injection heq with _ hv hlin hbyte
      exact ⟨hv, by rw [hlin], hbyte⟩

/-- In every reachable configuration the rings hold what has come in. -/
theorem ringContents (h : (ringMachine B rows tiles).Reachable m₀ c) : RingContents B rows c := by
  have hempty : ∀ {c : RingConfig}, (∀ u j, ¬Ran B c (c.epoch .block) u j) →
      (∀ w lin byte, ¬Landed c (.b (c.epoch .block) w lin byte)) → RingContents B rows c :=
    fun hran hlanded => ⟨fun _ hheld => absurd hheld.1 (hran _ _),
      fun hl => absurd hl (hlanded _ _ _)⟩
  induction h with
  | init =>
    exact hempty (fun _ _ => not_ran_init) fun w lin byte hl =>
      not_ran_init (Landed.issued .init hl).1
  | @step c c' h hstep ih =>
    have h' := h.step hstep
    cases ringStep h hstep with
    | thread t i head enabled mem parity others epoch ran landed =>
      cases i with
      | stageA k => exact ih.stageA h h' head mem epoch ran landed
      | _ => exact ih.frame (by simp) mem epoch ran landed
    | copy l issued missing mem parity epoch ran landed =>
      cases l with
      | a n t g it => exact ih.landChunk h (ringInv h) issued missing mem epoch ran landed
      | b n w lin byte => exact ih.landByte h (ringInv h) issued missing mem epoch ran landed
    | engine mem parity epoch ran landed =>
      constructor
      · intro u g it hit hheld hnext
        rw [epoch] at hheld hnext ⊢
        rw [mem]
        exact ih.chunk hit ⟨(ran _ _ _).mp hheld.1, fun hrow => (landed _).mp (hheld.2 hrow)⟩
          fun hold => hnext ((ran _ _ _).mpr hold)
      · intro w lin byte hl hnext
        rw [epoch] at hl hnext ⊢
        rw [mem]
        exact ih.byte ((landed _).mp hl) fun ha => hnext ((ran _ _ _).mpr ha)
    | next idle mem parity epoch ran landed =>
      exact hempty (fun _ _ => not_ran_of_next epoch ran) fun w lin byte hl =>
        not_ran_of_next epoch ran (Landed.issued h' hl).1

end Contents

/-! ## Reading -/

section Reads

variable (h : (ringMachine B rows tiles).Reachable m₀ c)

/-- A warp of the warpgroup has begun a step, and some product of the step may still read. -/
def Reading (B : RingBuild) (c : RingConfig) (n : ℕ) (w : Fin 2) (lin : ℕ) : Prop :=
  (∃ t : Tid, t.wg = w ∧ Ran B c n t (.mbarrierWait lin)) ∧
    ∃ sb < B.mSubs, ∀ t : Tid, t.wg = w → ¬Ran B c n t (.wgmmaWait lin sb)

include h in
/-- A product that is issued reads. -/
lemma Head.reading (hhead : Head c t (.wgmma lin sb)) : Reading B c (c.epoch .block) t.wg lin := by
  obtain ⟨-, hlin, hsb⟩ := hhead.runs h
  refine ⟨⟨t, rfl, hhead.before h hlin ?_⟩, sb, hsb, fun u hu hwait => ?_⟩
  · simp only [RingBuild.place]
    omega
  · exact hhead.not_ran (hwait.of_wgmmaWait h hu.symm)

/-- A step that is read is a step of a phase. -/
lemma Reading.lt (hread : Reading B c n w lin) : 0 < n ∧ lin < B.steps n := by
  obtain ⟨⟨t, -, hwait⟩, -⟩ := hread
  exact hwait.runs

/-- What a step executes was the next operation of its thread. -/
lemma Ran.of_step (h : (ringMachine B rows tiles).Reachable m₀ c)
    (hstep : (ringMachine B rows tiles).Step c c') (hj : Ran B c' n u j) :
    Ran B c n u j ∨ n = c.epoch .block ∧ Head c u j := by
  cases ringStep h hstep with
  | thread t i head _ _ _ _ _ ran _ =>
    rcases (ran _ _ _).mp hj with hold | ⟨hn, rfl, rfl⟩
    · exact Or.inl hold
    · exact Or.inr ⟨hn, head⟩
  | copy _ _ _ _ _ _ ran _ => exact Or.inl ((ran _ _ _).mp hj)
  | engine _ _ _ ran _ => exact Or.inl ((ran _ _ _).mp hj)
  | next _ _ _ _ ran _ => exact Or.inl ((ran _ _ _).mp hj)

/-- What has run stays run. -/
lemma Ran.step (hj : Ran B c n u j) (hstep : (ringMachine B rows tiles).Step c c') :
    Ran B c' n u j := ⟨hj.1, hj.2.step hstep⟩

include h in
/-- The block stays in its phase as long as somebody reads. -/
lemma Reading.epoch_step (hread : Reading B c (c.epoch .block) w lin)
    (hstep : (ringMachine B rows tiles).Step c c') : c'.epoch .block = c.epoch .block := by
  cases ringStep h hstep with
  | thread _ _ _ _ _ _ _ epoch _ _ => exact epoch
  | copy _ _ _ _ _ epoch _ _ => exact epoch
  | engine _ _ epoch _ _ => exact epoch
  | next idle _ _ _ _ _ =>
    obtain ⟨hpos, hlin⟩ := hread.lt
    obtain ⟨⟨t, ht, -⟩, sb, hsb, hnot⟩ := hread
    exact absurd (Ran.of_idle (i := .wgmmaWait lin sb) (idle t) hpos ⟨hlin, hsb⟩) (hnot t ht)

/-! ### Activations -/

/-- Every step of an up phase has a barrier behind its copies. -/
lemma runs_sync_step {n : ℕ} (hup : RingBuild.isUp n = true) (hlin : lin < B.wgTiles) :
    B.Runs n t (.sync (B.base lin + 1)) := by
  simp only [RingBuild.Runs, if_pos hup]
  exact Or.inr (Or.inl ⟨lin, hlin, Or.inl rfl⟩)

include h in
/-- Behind the barrier of the next step the products of a step are over. -/
lemma Ran.wgmmaWait_of_sync (hsync : Ran B c n t (.sync (B.base (lin + 1) + 1)))
    (hlin : lin < B.steps n) (hsb : sb < B.mSubs) : Ran B c n u (.wgmmaWait lin sb) := by
  refine hsync.of_sync h ⟨hlin, hsb⟩ ?_
  have := base_add_le (B := B) (show lin < lin + 1 by omega)
  simp only [RingBuild.place]
  omega

/-- A slot is staged again behind the barrier of the next step. -/
lemma place_sync_lt_restage :
    B.place (.sync (B.base (lin + 1) + 1)) < B.place (.stageA (lin + B.aStages)) := by
  have hstages := B.three_le_aStages
  simp only [RingBuild.place, if_neg (show ¬lin + B.aStages < B.aStages - 1 by omega),
    show lin + B.aStages - (B.aStages - 1) = lin + 1 by omega]
  omega

/-- Only an up phase stages ahead, and not beyond its last step. -/
lemma lt_of_runs_restage (hruns : B.Runs n t (.stageA (lin + B.aStages))) :
    RingBuild.isUp n = true ∧ lin + 1 < B.wgTiles := by
  have hstages := B.three_le_aStages
  obtain ⟨hup, hrange⟩ := hruns
  exact ⟨hup, by omega⟩

include h in
/-- A slot that is read is not staged again. -/
lemma Reading.not_restaged (hread : Reading B c n w lin) :
    ¬Ran B c n t (.stageA (lin + B.aStages)) := by
  obtain ⟨-, hlin⟩ := hread.lt
  obtain ⟨-, sb, hsb, hnot⟩ := hread
  intro hagain
  obtain ⟨hup, hnext⟩ := lt_of_runs_restage hagain.runs.2
  have hsync := hagain.before h (runs_sync_step hup hnext) place_sync_lt_restage
  exact hnot (wgLeader w) (wg_wgLeader w) (hsync.wgmmaWait_of_sync h hlin hsb)

include h in
/-- Nor is anybody about to. -/
lemma Reading.not_restaging (hread : Reading B c (c.epoch .block) w lin) :
    ¬Head c t (.stageA (lin + B.aStages)) := by
  obtain ⟨-, hlin⟩ := hread.lt
  obtain ⟨-, sb, hsb, hnot⟩ := hread
  intro hagain
  obtain ⟨hup, hnext⟩ := lt_of_runs_restage (hagain.runs h).2
  have hsync := hagain.before h (runs_sync_step hup hnext) place_sync_lt_restage
  exact hnot (wgLeader w) (wg_wgLeader w) (hsync.wgmmaWait_of_sync h hlin hsb)

include h in
/-- The chunks that a step reads are in their slot. -/
lemma Reading.chunkHeld (hread : Reading B c n w lin) (hup : RingBuild.isUp n = true)
    (hit : it < B.aIters) : ChunkHeld B rows c n t lin it := by
  have hlin : lin < B.wgTiles := by simpa [RingBuild.steps, hup] using hread.lt.2
  obtain ⟨⟨u, -, hwait⟩, -⟩ := hread
  have hsync : Ran B c n u (.sync (B.base lin + 1)) := by
    refine hwait.before h (runs_sync_step hup hlin) ?_
    simp only [RingBuild.place]
    omega
  have hcpa : Ran B c n t (.cpaWait lin) :=
    hsync.of_sync h ⟨hup, hlin⟩ (by simp [RingBuild.place])
  have hstages := B.three_le_aStages
  have hstaged : Ran B c n t (.stageA lin) :=
    hcpa.before h ⟨hup, by omega⟩ (place_stageA_lt (by omega))
  exact ⟨hstaged, fun hrow => landed_of_cpaWait h hcpa le_rfl hit hrow⟩

include h in
/-- A step reads its activation block. -/
lemma Reading.aRing (hread : Reading B c (c.epoch .block) w lin)
    (hup : RingBuild.isUp (c.epoch .block) = true) (hit : it < B.aIters) :
    c.mem.aRing (lin % B.aStages) t it = B.activationBlock (c.epoch .block) lin :=
  (ringContents h).chunk hit (hread.chunkHeld h hup hit) (hread.not_restaged h)

include h in
/-- Nothing is written to an activation slot that is read. -/
lemma Reading.aRing_step (hread : Reading B c (c.epoch .block) w lin)
    (hup : RingBuild.isUp (c.epoch .block) = true) (hit : it < B.aIters)
    (hstep : (ringMachine B rows tiles).Step c c') :
    c'.mem.aRing (lin % B.aStages) t it = c.mem.aRing (lin % B.aStages) t it := by
  have hepoch := hread.epoch_step h hstep
  have hheld := hread.chunkHeld (t := t) h hup hit
  have hnext : ¬Ran B c' (c.epoch .block) t (.stageA (lin + B.aStages)) := by
    intro hagain
    rcases hagain.of_step h hstep with hold | ⟨-, hhead⟩
    · exact hread.not_restaged h hold
    · exact hread.not_restaging h hhead
  have hafter := (ringContents (h.step hstep)).chunk (t := t) (g := lin) hit
    (by rw [hepoch]; exact ⟨hheld.1.step hstep, fun hrow => (hheld.2 hrow).step hstep⟩)
    (by rw [hepoch]; exact hnext)
  rw [hafter, hepoch, hread.aRing h hup hit]

/-! ### Weights -/

include h in
/-- A slot that is read is not armed again. -/
lemma Reading.not_rearmed (hread : Reading B c n w lin) : ¬Armed B c n w (lin + B.depth n) := by
  obtain ⟨-, sb, hsb, hnot⟩ := hread
  exact fun hagain => hnot (wgLeader w) (wg_wgLeader w) (hagain.ran_wgmmaWait h hsb)

include h in
/-- Nor is its leader about to. -/
lemma Reading.not_rearming (hread : Reading B c (c.epoch .block) w lin) :
    ¬Head c (wgLeader w)
      (.armTile (B.depth (c.epoch .block)) (lin + B.depth (c.epoch .block))) := by
  obtain ⟨-, hlin⟩ := hread.lt
  obtain ⟨-, sb, hsb, hnot⟩ := hread
  intro hagain
  refine hnot (wgLeader w) (wg_wgLeader w) (hagain.before h ⟨hlin, hsb⟩ ?_)
  rw [place_rearm]
  simp only [RingBuild.place]
  omega

include h in
/-- The weight tile that a step reads has come in. -/
lemma Reading.landed (hread : Reading B c (c.epoch .block) w lin) {byte : ℕ}
    (hbyte : byte < B.bShm) : Landed c (.b (c.epoch .block) w lin byte) := by
  obtain ⟨⟨t, rfl, hwait⟩, -⟩ := hread
  exact (ringInv h).waited hwait hbyte

include h in
/-- A step reads its weight tile. -/
lemma Reading.bRing (hread : Reading B c (c.epoch .block) w lin) {byte : ℕ}
    (hbyte : byte < B.bShm) : c.mem.bRing w (lin % B.depth (c.epoch .block)) byte =
      B.weightTile (c.epoch .block) w lin :=
  (ringContents h).byte (hread.landed h hbyte) (hread.not_rearmed h)

include h in
/-- Nothing is written to a weight slot that is read. -/
lemma Reading.bRing_step (hread : Reading B c (c.epoch .block) w lin) {byte : ℕ}
    (hbyte : byte < B.bShm) (hstep : (ringMachine B rows tiles).Step c c') :
    c'.mem.bRing w (lin % B.depth (c.epoch .block)) byte =
      c.mem.bRing w (lin % B.depth (c.epoch .block)) byte := by
  have hepoch := hread.epoch_step h hstep
  have hnext : ¬Armed B c' (c.epoch .block) w (lin + B.depth (c.epoch .block)) := by
    intro hagain
    rcases hagain.of_step h hstep with hold | ⟨-, hhead⟩
    · exact hread.not_rearmed h hold
    · exact hread.not_rearming h hhead
  have hafter : c'.mem.bRing w (lin % B.depth (c'.epoch .block)) byte =
      B.weightTile (c'.epoch .block) w lin :=
    (ringContents (h.step hstep)).byte (by rw [hepoch]; exact (hread.landed h hbyte).step hstep)
      (by rw [hepoch]; exact hnext)
  rw [hepoch] at hafter
  rw [hafter, hread.bRing h hbyte]

end Reads

/-! ## The pipelines -/

/-- In every configuration that the tile loop reaches: every product is issued inside the window of
its step; in the window of step `lin` of an up projection the activation slot holds block
`lin % N_KBLK` of the tile, in that of any phase the weight slot holds the weight tile of the step,
and no step of the machine writes to these slots; a thread at the wait of a step asks for the phase
of the load of that step and gets through if and only if that load has been issued and has come in;
and when the threads are through with a phase no load is in flight. -/
theorem operand_pipelines (B : RingBuild) (rows : ℕ → ℕ) (tiles : ℕ) (m₀ : RingMem)
    (c : RingConfig) (n : ℕ) (h : (ringMachine B rows tiles).Reachable m₀ c)
    (hn : c.epoch .block = n) :
    (∀ t lin sb, Head c t (.wgmma lin sb) → Reading B c n t.wg lin) ∧
    (∀ w lin, Reading B c n w lin →
      (RingBuild.isUp n = true → ∀ t it, it < B.aIters →
        c.mem.aRing (lin % B.aStages) t it = ⟨RingBuild.tileOf n, lin % B.nKblk⟩ ∧
        ∀ c', (ringMachine B rows tiles).Step c c' →
          c'.mem.aRing (lin % B.aStages) t it = c.mem.aRing (lin % B.aStages) t it) ∧
      ∀ byte < B.bShm,
        c.mem.bRing w (lin % B.depth n) byte = B.weightTile n w lin ∧
        ∀ c', (ringMachine B rows tiles).Step c c' →
          c'.mem.bRing w (lin % B.depth n) byte = c.mem.bRing w (lin % B.depth n) byte) ∧
    (∀ t lin, Head c t (.mbarrierWait lin) →
      c.reg .block (.thread t) (lin % B.depth n) = lin / B.depth n % 2 ∧
      (Loaded B c n t.wg lin →
        (c.mem.bar t.wg (lin % B.depth n)).phase = lin / B.depth n + 1) ∧
      (¬Loaded B c n t.wg lin → (c.mem.bar t.wg (lin % B.depth n)).phase = lin / B.depth n) ∧
      (ringEnabled B rows c .block (.thread t) (.mbarrierWait lin) ↔ Loaded B c n t.wg lin)) ∧
    ((∀ t, c.rest .block (.thread t) = []) → ∀ l, Issued B rows c l → Landed c l) := by
  subst hn
  have hrings := ringInv h
  refine ⟨fun t lin sb hhead => hhead.reading h, fun w lin hread => ⟨fun hup t it hit => ?_,
    fun byte hbyte => ?_⟩, fun t lin hhead => ?_,
    fun hidle l hl => hrings.landed_of_idle h hidle hl⟩
  · exact ⟨hread.aRing h hup hit, fun c' hstep => hread.aRing_step h hup hit hstep⟩
  · exact ⟨hread.bRing h hbyte, fun c' hstep => hread.bRing_step h hbyte hstep⟩
  · obtain ⟨hloaded, hnot⟩ := hrings.phase_of_head h hhead
    exact ⟨hhead.parity h (parityInv h), hloaded, hnot,
      hrings.tryWaitParity_iff h (parityInv h) hhead⟩

/-- The ring of the sample build has a slot. -/
lemma zero_lt_four_stages : 0 < 4 := Nat.succ_pos 3

/-- The rings of the tensor-parallel DeepSeek-V3 build. -/
def deepseekRings : RingBuild where
  nKblk := 56
  gatePasses := 4
  dKblk := 2
  passesPerWg := 56
  aStages := 4
  upPipe := 4
  dnPipe := 2
  mSubs := 2
  aIters := 4
  bShm := 8192
  three_le_aStages := Nat.le_succ 3
  aStages_le := Nat.le_add_right 4 52
  upPipe_pos := zero_lt_four_stages
  dnPipe_pos := Nat.two_pos
  mSubs_pos := Nat.two_pos

end UnimonoMoe
