import UnimonoMoe.Lib.Epochs
import Mathlib.Data.Set.Card

/-!
# What has been executed

For the machines of `Epochs`.  `M.Ran c n r t i` says that `i` belongs to the program of thread `t`
of agent `r` in epoch `n` and has been executed; `c.Head r t i` says that `i` is the next
instruction of a thread.  Invariants are stated with these two: `Ran.before` and `Head.before` put
what a program has earlier behind a thread, `Ran.of_barrier` puts it behind all threads of a group,
and `StepOf` says what a step of the machine does to `Ran`, to the memory and to the registers.
-/

namespace Epochs

variable {ρ τ ι μ ℓ : Type*} {M : Machine ρ τ ι μ ℓ} {m₀ : μ} {c c' : Config ρ τ ι μ ℓ}
  {stage : ι → ℕ} {n : ℕ} {r : ρ} {t : τ} {i j : ι}

/-- A thread has executed `i`, which belongs to its program. -/
def Machine.Ran (M : Machine ρ τ ι μ ℓ) (c : Config ρ τ ι μ ℓ) (n : ℕ) (r : ρ) (t : τ) (i : ι) :
    Prop := i ∈ M.prog n r t ∧ Done c n r t i

/-- `i` is the next instruction of a thread. -/
def Config.Head (c : Config ρ τ ι μ ℓ) (r : ρ) (t : τ) (i : ι) : Prop :=
  ∃ l, c.rest r t = i :: l

/-! ## Executed instructions -/

/-- Nothing of a later epoch has run. -/
lemma Machine.Ran.epoch_le (hi : M.Ran c n r t i) : n ≤ c.epoch r := by
  rcases hi.2 with hlt | ⟨rfl, -⟩
  · exact hlt.le
  · exact le_rfl

/-- When nothing is ahead of a thread it has executed its program. -/
lemma Machine.Ran.of_idle (hidle : c.rest r t = []) (hi : i ∈ M.prog (c.epoch r) r t) :
    M.Ran c (c.epoch r) r t i :=
  ⟨hi, Or.inr ⟨rfl, by rw [hidle]; exact List.not_mem_nil⟩⟩

/-- It has executed its programs of the epochs before as well. -/
lemma Machine.Ran.of_finished (hidle : c.rest r t = []) (hn : n ≤ c.epoch r)
    (hi : i ∈ M.prog n r t) : M.Ran c n r t i := by
  rcases hn.lt_or_eq with hlt | rfl
  · exact ⟨hi, Or.inl hlt⟩
  · exact .of_idle hidle hi

/-- There is no program before the first epoch. -/
lemma Machine.Ran.pos (hM : M.Staged stage) (hi : M.Ran c n r t i) : 0 < n := by
  refine Nat.pos_of_ne_zero fun hn => ?_
  have hmem := hi.1
  rw [hn, hM.prog_zero] at hmem
  exact List.not_mem_nil hmem

/-- At the start nothing has been executed. -/
lemma not_ran_init (hM : M.Staged stage) : ¬M.Ran (M.init m₀) n r t i := by
  intro hi
  have hpos := hi.pos hM
  have hle : n ≤ 0 := hi.epoch_le
  omega

/-- The next instruction of a thread has not been executed. -/
lemma Config.Head.not_ran (hi : c.Head r t i) : ¬M.Ran c (c.epoch r) r t i := by
  obtain ⟨l, hrest⟩ := hi
  rintro ⟨-, hlt | ⟨-, hnot⟩⟩
  · exact lt_irrefl _ hlt
  · exact hnot (by rw [hrest]; exact List.mem_cons_self)

variable [DecidableEq ρ] [DecidableEq τ]

/-- What has run stays run. -/
lemma Machine.Ran.step (hi : M.Ran c n r t i) (hstep : M.Step c c') : M.Ran c' n r t i :=
  ⟨hi.1, hi.2.step hstep⟩

/-- The next instruction of a thread is one of its program. -/
lemma Config.Head.mem_prog (h : M.Reachable m₀ c) (hi : c.Head r t i) :
    i ∈ M.prog (c.epoch r) r t := by
  obtain ⟨l, hrest⟩ := hi
  exact h.mem_prog (by rw [hrest]; exact List.mem_cons_self)

/-- What a thread runs earlier has been executed. -/
lemma Machine.Ran.before (hM : M.Staged stage) (h : M.Reachable m₀ c) (hj : M.Ran c n r t j)
    (hi : i ∈ M.prog n r t) (hlt : stage i < stage j) : M.Ran c n r t i :=
  ⟨hi, hj.2.of_stage_lt hM h hj.1 hlt⟩

/-- What a thread runs before its next instruction has been executed. -/
lemma Config.Head.before (hM : M.Staged stage) (h : M.Reachable m₀ c) (hj : c.Head r t j)
    (hi : i ∈ M.prog (c.epoch r) r t) (hlt : stage i < stage j) : M.Ran c (c.epoch r) r t i := by
  obtain ⟨l, hrest⟩ := hj
  exact ⟨hi, done_of_head hM h hrest hlt⟩

omit [DecidableEq ρ] [DecidableEq τ] in
/-- A program that has no instruction twice and holds `i` before `j` has `j` ahead wherever it has
`i` ahead. -/
lemma mem_of_pair_sublist {l rest : List ι} (hnodup : l.Nodup) (hrest : rest <:+ l)
    (hpair : [i, j].Sublist l) (hi : i ∈ rest) : j ∈ rest.tail := by
  obtain ⟨done, rfl⟩ := hrest
  obtain ⟨-, hnodup', hdisjoint⟩ := List.nodup_append.mp hnodup
  obtain ⟨l₁, l₂, hsplit, hdone, hahead⟩ := List.sublist_append_iff.mp hpair
  cases l₁ with
  | cons k l₁ =>
    obtain ⟨rfl, -⟩ := List.cons.inj hsplit
    exact absurd rfl (hdisjoint i (hdone.subset List.mem_cons_self) i hi)
  | nil =>
    rw [List.nil_append] at hsplit
    rw [← hsplit] at hahead
    cases hahead with
    | cons _ h => exact h.subset (List.mem_cons_of_mem i List.mem_cons_self)
    | cons_cons _ h => exact h.subset List.mem_cons_self

/-- What stands before `j` in a program has been executed when `j` has. -/
lemma Machine.Ran.before_of_pair (hM : M.Staged stage) (h : M.Reachable m₀ c)
    (hj : M.Ran c n r t j) (hpair : [i, j].Sublist (M.prog n r t)) : M.Ran c n r t i := by
  refine ⟨hpair.subset List.mem_cons_self, ?_⟩
  rcases hj.2 with hlt | ⟨rfl, hnot⟩
  · exact Or.inl hlt
  · exact Or.inr ⟨rfl, fun hi => hnot (List.mem_of_mem_tail
      (mem_of_pair_sublist (hM.nodup _ r t) (h.rest_suffix r t) hpair hi))⟩

/-- What stands before the next instruction in a program has been executed. -/
lemma Config.Head.before_of_pair (hM : M.Staged stage) (h : M.Reachable m₀ c) (hj : c.Head r t j)
    (hpair : [i, j].Sublist (M.prog (c.epoch r) r t)) : M.Ran c (c.epoch r) r t i := by
  obtain ⟨l, hrest⟩ := hj
  refine ⟨hpair.subset List.mem_cons_self, Or.inr ⟨rfl, fun hi => ?_⟩⟩
  have htail := mem_of_pair_sublist (hM.nodup _ r t) (h.rest_suffix r t) hpair hi
  exact Arrived.of_head hM h hrest htail

/-- A barrier puts what lies before it behind every thread of its group. -/
lemma Machine.Ran.of_barrier (hM : M.Staged stage) (h : M.Reachable m₀ c) (group : τ → Prop)
    (hj : M.Ran c n r t j) (hgroup : ∀ t', group t' → j ∈ M.prog n r t')
    (hopen : ∀ c, M.enabled c r t j → ∀ t', group t' → Arrived c r t' j) {t' : τ}
    (ht' : group t') (hi : i ∈ M.prog n r t') (hlt : stage i < stage j) : M.Ran c n r t' i :=
  ⟨hi, h.done_of_barrier hM group (hj.pos hM) hj.1 hgroup hopen hj.2 ht' hlt⟩

/-! ## Steps -/

/-- What a step can do: a thread executes its next instruction, or an agent goes on to its next
epoch. -/
inductive Machine.StepOf (M : Machine ρ τ ι μ ℓ) (c c' : Config ρ τ ι μ ℓ) : Prop
  | exec (r : ρ) (t : τ) (i : ι) (head : c.Head r t i) (enabled : M.enabled c r t i)
      (mem : c'.mem = (M.effect c r t i).1) (reg : c'.reg r t = (M.effect c r t i).2)
      (others : ∀ r' t', ¬(r' = r ∧ t' = t) → c'.reg r' t' = c.reg r' t')
      (epoch : c'.epoch = c.epoch)
      (ran : ∀ n r' t' j, M.Ran c' n r' t' j ↔
        M.Ran c n r' t' j ∨ n = c.epoch r ∧ r' = r ∧ t' = t ∧ j = i)
  | next (r : ρ) (idle : ∀ t, c.rest r t = []) (mem : c'.mem = M.start r c.mem)
      (reg : ∀ t, c'.reg r t = M.reg₀) (others : ∀ r' ≠ r, c'.reg r' = c.reg r')
      (epoch : c'.epoch r = c.epoch r + 1) (epochs : ∀ r' ≠ r, c'.epoch r' = c.epoch r')
      (ran : ∀ n r' t' j, M.Ran c' n r' t' j ↔ M.Ran c n r' t' j)

/-- `StepOf` describes the steps. -/
theorem Machine.Reachable.stepOf (hM : M.Staged stage) (h : M.Reachable m₀ c)
    (hstep : M.Step c c') : M.StepOf c c' := by
  cases hstep with
  | @fire r t i l hrest henabled =>
    refine .exec r t i ⟨l, hrest⟩ henabled rfl (fire_reg_self ..)
      (fun _ _ hne => fire_reg_of_ne c r t i l hne) rfl fun n r' t' j => ?_
    unfold Machine.Ran
    rw [done_fire_iff hM h hrest]
    constructor
    · rintro ⟨hj, hold | hnew⟩
      · exact Or.inl ⟨hj, hold⟩
      · exact Or.inr hnew
    · rintro (⟨hj, hold⟩ | ⟨rfl, rfl, rfl, rfl⟩)
      · exact ⟨hj, Or.inl hold⟩
      · exact ⟨Config.Head.mem_prog h ⟨l, hrest⟩, Or.inr ⟨rfl, rfl, rfl, rfl⟩⟩
  | @launch r hmore hidle =>
    exact .next r hidle rfl (fun t => launch_reg_self ..)
      (fun r' hne => launch_reg_of_ne c r hne) (launch_epoch_self ..)
      (fun r' hne => launch_epoch_of_ne c r hne)
      fun n r' t' j => and_congr_right fun hj => done_launch_iff hj hidle

omit [DecidableEq ρ] [DecidableEq τ] in
/-- Nothing has been executed in the epoch that an agent goes on to. -/
lemma not_ran_of_next (hepoch : c'.epoch r = c.epoch r + 1)
    (hran : ∀ n r' t' j, M.Ran c' n r' t' j ↔ M.Ran c n r' t' j) :
    ¬M.Ran c' (c'.epoch r) r t i := by
  intro hi
  have hle := ((hran _ _ _ _).mp hi).epoch_le
  omega

/-- What a step executes was the next instruction of its thread. -/
lemma Machine.Ran.of_step (hM : M.Staged stage) (h : M.Reachable m₀ c) (hstep : M.Step c c')
    (hj : M.Ran c' n r t j) : M.Ran c n r t j ∨ n = c.epoch r ∧ c.Head r t j := by
  cases h.stepOf hM hstep with
  | exec r' t' i head _ _ _ _ _ ran =>
    rcases (ran _ _ _ _).mp hj with hold | ⟨hn, rfl, rfl, rfl⟩
    · exact Or.inl hold
    · exact Or.inr ⟨hn, head⟩
  | next _ _ _ _ _ _ _ ran => exact Or.inl ((ran _ _ _ _).mp hj)

/-- What has been executed was once the next instruction of its thread, with its guard open. -/
lemma Machine.Ran.exists_head (hM : M.Staged stage) (h : M.Reachable m₀ c) (hi : M.Ran c n r t i) :
    ∃ c, M.Reachable m₀ c ∧ c.epoch r = n ∧ c.Head r t i ∧ M.enabled c r t i :=
  h.of_done_guard (P := fun _ => ∃ c, M.Reachable m₀ c ∧ c.epoch r = n ∧ c.Head r t i ∧
    M.enabled c r t i) (hi.pos hM) hi.1 (fun _ _ _ _ hc => hc)
    (fun c l hc hepoch hrest henabled => ⟨c, hc, hepoch, ⟨l, hrest⟩, henabled⟩) hi.2

/-! ## Progress -/

/-- A machine that is held up by nothing but barriers, each alone in its stage, can always go
on. -/
theorem Machine.exists_step_of_barriers (hM : M.Staged stage) (h : M.Reachable m₀ c)
    (hblock : ∀ r t i, c.Head r t i → ¬M.enabled c r t i → ∃ u, ¬Arrived c r u i ∧
      ∀ j ∈ M.prog (c.epoch r) r u, stage j = stage i → j = i)
    (hrun : ∃ r, M.Unfinished c r) : ∃ c', M.Step c c' := by
  have hbehind : ∀ r t i l, c.rest r t = i :: l → ¬M.enabled c r t i →
      M.Behind stage c r (stage i) := by
    intro r t i l hrest hblocked
    obtain ⟨u, hnot, halone⟩ := hblock r t i ⟨l, hrest⟩ hblocked
    exact Machine.Behind.of_not_arrived hM h hnot halone
  by_cases hbusy : ∃ r t, c.rest r t ≠ []
  · rcases exists_enabled_of_stage stage hbehind hbusy with
      ⟨r, t, i, l, hrest, henabled⟩ | ⟨r, hmore, hidle⟩
    · exact ⟨_, Machine.Step.fire hrest henabled⟩
    · exact ⟨_, Machine.Step.launch hmore hidle⟩
  · obtain ⟨r, hr⟩ := hrun
    have hidle : ∀ t, c.rest r t = [] := fun t => not_not.mp fun hne => hbusy ⟨r, t, hne⟩
    exact ⟨_, Machine.Step.launch (hr.resolve_right fun ⟨t, hne⟩ => hbusy ⟨r, t, hne⟩) hidle⟩

/-! ## Maximal runs -/

/-- A run from memory `m₀` that goes on as long as it can, and stands still from then on. -/
structure Machine.MaximalRun (M : Machine ρ τ ι μ ℓ) (m₀ : μ) (run : ℕ → Config ρ τ ι μ ℓ) :
    Prop where
  init : run 0 = M.init m₀
  step : ∀ k, M.Step (run k) (run (k + 1)) ∨
    (∀ c', ¬ M.Step (run k) c') ∧ run (k + 1) = run k

/-- A run goes through reachable configurations. -/
lemma Machine.MaximalRun.reachable {run : ℕ → Config ρ τ ι μ ℓ} (h : M.MaximalRun m₀ run) (k : ℕ) :
    M.Reachable m₀ (run k) := by
  induction k with
  | zero => exact h.init ▸ Machine.Reachable.init
  | succ k ih =>
    rcases h.step k with hstep | ⟨-, hsame⟩
    · exact ih.step hstep
    · rwa [hsame]

/-- There is a maximal run. -/
lemma Machine.exists_maximalRun (M : Machine ρ τ ι μ ℓ) (m₀ : μ) :
    ∃ run, M.MaximalRun m₀ run := by
  classical
  let next : Config ρ τ ι μ ℓ → Config ρ τ ι μ ℓ := fun c =>
    if h : ∃ c', M.Step c c' then h.choose else c
  refine ⟨fun k => next^[k] (M.init m₀), rfl, fun k => ?_⟩
  rw [Function.iterate_succ_apply']
  by_cases h : ∃ c', M.Step (next^[k] (M.init m₀)) c'
  · left
    simp only [next, dif_pos h]
    exact h.choose_spec
  · exact Or.inr ⟨not_exists.mp h, dif_neg h⟩

/-- A maximal run comes to its end if every step makes something smaller. -/
theorem Machine.MaximalRun.exists_stuck_of_measure {run : ℕ → Config ρ τ ι μ ℓ}
    (h : M.MaximalRun m₀ run) (measure : Config ρ τ ι μ ℓ → ℕ)
    (hless : ∀ c c', M.Reachable m₀ c → M.Step c c' → measure c' < measure c) :
    ∃ K, ∀ k, K ≤ k → ∀ c', ¬ M.Step (run k) c' := by
  have hstop : ∃ K, ∀ c', ¬ M.Step (run K) c' := by
    by_contra hgoes
    have hgoes : ∀ k, ∃ c', M.Step (run k) c' := fun k => by
      by_contra hstuck
      exact hgoes ⟨k, not_exists.mp hstuck⟩
    have hbound : ∀ k, measure (run k) + k ≤ measure (run 0) := by
      intro k
      induction k with
      | zero => exact le_rfl
      | succ k ih =>
        obtain ⟨c', hc'⟩ := hgoes k
        rcases h.step k with hstep | ⟨hstuck, -⟩
        · have := hless _ _ (h.reachable k) hstep
          omega
        · exact absurd hc' (hstuck c')
    have := hbound (measure (run 0) + 1)
    omega
  obtain ⟨K, hK⟩ := hstop
  refine ⟨K, fun k hk => ?_⟩
  induction k, hk using Nat.le_induction with
  | base => exact hK
  | succ k _ ih =>
    rcases h.step k with hstep | ⟨-, hsame⟩
    · exact absurd hstep (ih _)
    · rwa [hsame]

/-- A maximal run of finitely many threads comes to its end. -/
theorem Machine.MaximalRun.exists_stuck [Fintype ρ] [Fintype τ] {run : ℕ → Config ρ τ ι μ ℓ}
    (h : M.MaximalRun m₀ run) : ∃ K, ∀ k, K ≤ k → ∀ c', ¬ M.Step (run k) c' :=
  h.exists_stuck_of_measure (fun c => ∑ r, M.left c r) fun _ _ _ hstep => left_lt_of_step hstep

/-- A maximal run comes to its end if the instructions that can be executed at all are finitely
many. -/
theorem Machine.MaximalRun.exists_stuck_of_finite [Fintype ρ] (hM : M.Staged stage)
    {F : Set (ℕ × ρ × τ × ι)} (hF : F.Finite) (hmem : ∀ c r t i, M.Reachable m₀ c →
      c.Head r t i → M.enabled c r t i → (c.epoch r, r, t, i) ∈ F)
    {run : ℕ → Config ρ τ ι μ ℓ} (h : M.MaximalRun m₀ run) :
    ∃ K, ∀ k, K ≤ k → ∀ c', ¬ M.Step (run k) c' := by
  -- what has not been executed, and the epochs that have not begun
  let waiting : Config ρ τ ι μ ℓ → Set (ℕ × ρ × τ × ι) := fun c =>
    {p ∈ F | ¬ M.Ran c p.1 p.2.1 p.2.2.1 p.2.2.2}
  refine h.exists_stuck_of_measure (fun c => (waiting c).ncard + ∑ r, (M.epochs - c.epoch r))
    fun c c' hc hstep => ?_
  cases hc.stepOf hM hstep with
  | exec r t i head enabled _ _ _ epoch ran =>
    have hless : (waiting c').ncard < (waiting c).ncard := by
      refine Set.ncard_lt_ncard ⟨?_, fun hsub => ?_⟩ (hF.subset (Set.sep_subset _ _))
      · exact fun p hp => ⟨hp.1, fun hran => hp.2 ((ran _ _ _ _).mpr (Or.inl hran))⟩
      · have hin : (c.epoch r, r, t, i) ∈ waiting c := ⟨hmem c r t i hc head enabled, head.not_ran⟩
        exact (hsub hin).2 ((ran _ _ _ _).mpr (Or.inr ⟨rfl, rfl, rfl, rfl⟩))
    simp only [epoch]
    omega
  | next r _ _ _ _ epoch epochs ran =>
    have hsame : waiting c' = waiting c := Set.ext fun p => by
      simp only [waiting, Set.mem_sep_iff, ran]
    have hle := (hc.step hstep).epoch_le r
    have hless : ∑ r', (M.epochs - c'.epoch r') < ∑ r', (M.epochs - c.epoch r') := by
      refine Finset.sum_lt_sum (fun r' _ => ?_) ⟨r, Finset.mem_univ r, by omega⟩
      by_cases hr : r' = r
      · subst hr
        omega
      · rw [epochs r' hr]
    simp only [hsame]
    omega

omit [DecidableEq ρ] [DecidableEq τ] in
/-- An agent that is held up only by what lies at a smaller stage of its own threads can go on. -/
theorem Config.exists_enabled_of_agent (r : ρ) (hblock : ∀ t i, c.Head r t i → ¬ M.enabled c r t i →
      ∃ t' i', c.Head r t' i' ∧ stage i' < stage i) (hbusy : ∃ t, c.rest r t ≠ []) :
    ∃ t i, c.Head r t i ∧ M.enabled c r t i := by
  have key : ∀ k t i, c.Head r t i → stage i = k → ∃ t i, c.Head r t i ∧ M.enabled c r t i := by
    intro k
    induction k using Nat.strong_induction_on with
    | h k ih =>
      intro t i hhead hk
      by_cases henabled : M.enabled c r t i
      · exact ⟨t, i, hhead, henabled⟩
      · obtain ⟨t', i', hhead', hless⟩ := hblock t i hhead henabled
        exact ih _ (hk ▸ hless) t' i' hhead' rfl
  obtain ⟨t, hne⟩ := hbusy
  obtain ⟨i, l, hrest⟩ := List.exists_cons_of_ne_nil hne
  exact key _ t i ⟨l, hrest⟩ rfl

/-! ## Machines with more memory -/

section MoreMemory

variable {ν : Type*}

/-- A configuration of a machine with more memory, without that memory. -/
def Config.base (c : Config ρ τ ι (μ × ν) ℓ) : Config ρ τ ι μ ℓ where
  epoch := c.epoch
  rest := c.rest
  reg := c.reg
  mem := c.mem.1

/-- The machine `M` with more memory, on which the instructions act by `store`. -/
def Machine.withStore (M : Machine ρ τ ι μ ℓ) (store : Config ρ τ ι μ ℓ → ρ → τ → ι → ν → ν) :
    Machine ρ τ ι (μ × ν) ℓ where
  epochs := M.epochs
  prog := M.prog
  start r m := (M.start r m.1, m.2)
  reg₀ := M.reg₀
  enabled c := M.enabled c.base
  effect c r t i :=
    (((M.effect c.base r t i).1, store c.base r t i c.mem.2), (M.effect c.base r t i).2)

variable {store : Config ρ τ ι μ ℓ → ρ → τ → ι → ν → ν}

omit [DecidableEq ρ] [DecidableEq τ] in
/-- The programs are those of the machine. -/
lemma Machine.Staged.withStore (hM : M.Staged stage) : (M.withStore store).Staged stage :=
  ⟨hM.prog_zero, hM.sorted, hM.nodup⟩

/-- What a step of a machine with more memory does: the step of the machine, and the store of the
instruction. -/
lemma Machine.step_withStore {c c' : Config ρ τ ι (μ × ν) ℓ}
    (hstep : (M.withStore store).Step c c') : M.Step c.base c'.base ∧
      ((∃ r t i, c.base.Head r t i ∧ M.enabled c.base r t i ∧
          (∃ l, c'.base = M.fire c.base r t i l) ∧ c'.mem.2 = store c.base r t i c.mem.2) ∨
        ∃ r, c'.base = M.launch c.base r ∧ c'.mem.2 = c.mem.2) := by
  cases hstep with
  | @fire r t i l hrest henabled =>
    exact ⟨Machine.Step.fire (M := M) (c := c.base) hrest henabled,
      Or.inl ⟨r, t, i, ⟨l, hrest⟩, henabled, ⟨l, rfl⟩, rfl⟩⟩
  | @launch r hmore hidle =>
    exact ⟨Machine.Step.launch (M := M) (c := c.base) hmore hidle, Or.inr ⟨r, rfl, rfl⟩⟩

/-- Every step of the machine is a step of the machine with more memory. -/
lemma Machine.Step.exists_withStore {c : Config ρ τ ι (μ × ν) ℓ} {d : Config ρ τ ι μ ℓ}
    (hstep : M.Step c.base d) : ∃ c', (M.withStore store).Step c c' ∧ c'.base = d := by
  cases hstep with
  | @fire r t i l hrest henabled =>
    exact ⟨_, Machine.Step.fire (M := M.withStore store) (c := c) hrest henabled, rfl⟩
  | @launch r hmore hidle =>
    exact ⟨_, Machine.Step.launch (M := M.withStore store) (c := c) hmore hidle, rfl⟩

/-- Whatever is reachable without the memory is reachable with it, -/
lemma Machine.Reachable.exists_withStore {d : Config ρ τ ι μ ℓ} (h : M.Reachable m₀ d)
    (store : Config ρ τ ι μ ℓ → ρ → τ → ι → ν → ν) (v : ν) :
    ∃ c, (M.withStore store).Reachable (m₀, v) c ∧ c.base = d := by
  induction h with
  | init => exact ⟨_, Machine.Reachable.init, rfl⟩
  | step _ hstep ih =>
    obtain ⟨c, hc, rfl⟩ := ih
    obtain ⟨c', hstep', hbase⟩ : ∃ c', (M.withStore store).Step c c' ∧ c'.base = _ :=
      hstep.exists_withStore
    exact ⟨c', hc.step hstep', hbase⟩

/-- and the other way round. -/
theorem Machine.Reachable.base {m : μ × ν} {c : Config ρ τ ι (μ × ν) ℓ}
    (h : (M.withStore store).Reachable m c) : M.Reachable m.1 c.base := by
  induction h with
  | init => exact Machine.Reachable.init
  | step _ hstep ih => exact ih.step (Machine.step_withStore hstep).1

/-- Nor does it change what is a maximal run. -/
lemma Machine.MaximalRun.base {m : μ × ν} {run : ℕ → Config ρ τ ι (μ × ν) ℓ}
    (h : (M.withStore store).MaximalRun m run) : M.MaximalRun m.1 fun k => (run k).base where
  init := by rw [h.init]; rfl
  step k := by
    rcases h.step k with hstep | ⟨hstuck, hsame⟩
    · exact Or.inl (Machine.step_withStore hstep).1
    · refine Or.inr ⟨fun d hd => ?_, congrArg Config.base hsame⟩
      have hmore : ∃ c', (M.withStore store).Step (run k) c' ∧ c'.base = d := hd.exists_withStore
      obtain ⟨c', hc', -⟩ := hmore
      exact hstuck c' hc'

end MoreMemory

end Epochs
