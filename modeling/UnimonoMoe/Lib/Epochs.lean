import Mathlib.Algebra.BigOperators.Intervals
import Mathlib.Algebra.Order.BigOperators.Group.Finset
import Mathlib.Data.Fintype.Card
import Mathlib.Data.List.Nodup
import Mathlib.Logic.Function.Basic
import Mathlib.Data.Prod.Lex

/-!
# Threads that run straight-line programs epoch after epoch

A machine has agents, every agent has threads, and the life of an agent is a sequence of epochs.
At the start of an epoch every thread of the agent receives a fresh list of instructions; an
agent starts its next epoch only after all its threads have run their lists to the end.  Agents
drift freely against each other.  An instruction may be blocked, and all enabled instructions of
all threads interleave arbitrarily.

The module gives the rules a proof about such a machine needs, over arbitrary types:

* `Done c n r t i` says that thread `t` of agent `r` has executed `i` in epoch `n`.  It is never
  lost again (`Done.step`), and whatever holds when `i` is executed and is stable holds wherever
  `i` is done (`Reachable.of_done`).
* When the instructions carry a `stage` that never decreases along a program, an executed
  instruction has all instructions of smaller stage of its thread behind it
  (`Done.of_stage_lt`), and a barrier carries this to the other threads of its group
  (`Arrived.done`).
* A counter that is incremented by one instruction counts the threads that have executed it
  (`Reachable.counter_eq`).
* If every blocked instruction is blocked on account of an unfinished thread in an earlier epoch
  or at a smaller stage (`Behind`), some thread can move (`exists_enabled_of_stage`).
* A machine that never gets stuck has a run that finishes (`Machine.exists_finished`).
-/

namespace Epochs

variable {ρ τ ι μ ℓ : Type*}

/-- A configuration: the epoch each agent is in, what remains of each thread's program, the
thread registers and the shared memory. -/
structure Config (ρ τ ι μ ℓ : Type*) where
  epoch : ρ → ℕ
  rest : ρ → τ → List ι
  reg : ρ → τ → ℓ
  mem : μ

/-- A machine: the number of epochs, the program of each thread in each epoch, what the start of
an epoch does to the memory, and the meaning of the instructions. -/
structure Machine (ρ τ ι μ ℓ : Type*) where
  epochs : ℕ
  prog : ℕ → ρ → τ → List ι
  start : ρ → μ → μ
  reg₀ : ℓ
  enabled : Config ρ τ ι μ ℓ → ρ → τ → ι → Prop
  effect : Config ρ τ ι μ ℓ → ρ → τ → ι → μ × ℓ

/-- Before the first epoch no thread has anything to run. -/
def Machine.init (M : Machine ρ τ ι μ ℓ) (m₀ : μ) : Config ρ τ ι μ ℓ where
  epoch _ := 0
  rest _ _ := []
  reg _ _ := M.reg₀
  mem := m₀

/-! ## The start of an epoch -/

section Launch

variable [DecidableEq ρ]

/-- Agent `r` starts its next epoch. -/
def Machine.launch (M : Machine ρ τ ι μ ℓ) (c : Config ρ τ ι μ ℓ) (r : ρ) : Config ρ τ ι μ ℓ where
  epoch := Function.update c.epoch r (c.epoch r + 1)
  rest := Function.update c.rest r (M.prog (c.epoch r + 1) r)
  reg := Function.update c.reg r fun _ => M.reg₀
  mem := M.start r c.mem

variable {M : Machine ρ τ ι μ ℓ} (c : Config ρ τ ι μ ℓ) (r : ρ) (t : τ)

/-- A launch takes the rank to its next epoch. -/
@[simp] lemma launch_epoch_self : (M.launch c r).epoch r = c.epoch r + 1 := by
  simp [Machine.launch]

/-- All of the program of that epoch is left. -/
@[simp] lemma launch_rest_self : (M.launch c r).rest r = M.prog (c.epoch r + 1) r := by
  simp [Machine.launch]

/-- The registers start anew. -/
@[simp] lemma launch_reg_self : (M.launch c r).reg r t = M.reg₀ := by
  simp [Machine.launch]

/-- The memory is what the start of an epoch makes of it. -/
@[simp] lemma launch_mem : (M.launch c r).mem = M.start r c.mem := rfl

/-- The start of an epoch of one agent leaves the epochs of the others alone. -/
lemma launch_epoch_of_ne {r' : ρ} (h : r' ≠ r) : (M.launch c r).epoch r' = c.epoch r' := by
  simp [Machine.launch, h]

/-- The start of an epoch of one agent leaves the programs of the others alone. -/
lemma launch_rest_of_ne {r' : ρ} (h : r' ≠ r) : (M.launch c r).rest r' = c.rest r' := by
  simp [Machine.launch, h]

/-- The start of an epoch of one agent leaves the registers of the others alone. -/
lemma launch_reg_of_ne {r' : ρ} (h : r' ≠ r) : (M.launch c r).reg r' = c.reg r' := by
  simp [Machine.launch, h]

end Launch

/-! ## Steps and runs -/

variable [DecidableEq ρ] [DecidableEq τ]

/-- Thread `t` of agent `r` executes `i`, after which `l` remains of its program. -/
def Machine.fire (M : Machine ρ τ ι μ ℓ) (c : Config ρ τ ι μ ℓ) (r : ρ) (t : τ) (i : ι)
    (l : List ι) : Config ρ τ ι μ ℓ where
  epoch := c.epoch
  rest := Function.update c.rest r (Function.update (c.rest r) t l)
  reg := Function.update c.reg r (Function.update (c.reg r) t (M.effect c r t i).2)
  mem := (M.effect c r t i).1

/-- One step: some thread executes its next instruction, or an agent whose threads have all
finished starts its next epoch. -/
inductive Machine.Step (M : Machine ρ τ ι μ ℓ) : Config ρ τ ι μ ℓ → Config ρ τ ι μ ℓ → Prop
  | fire {c : Config ρ τ ι μ ℓ} {r : ρ} {t : τ} {i : ι} {l : List ι}
      (hrest : c.rest r t = i :: l) (henabled : M.enabled c r t i) :
      Step M c (M.fire c r t i l)
  | launch {c : Config ρ τ ι μ ℓ} {r : ρ} (hmore : c.epoch r < M.epochs)
      (hidle : ∀ t, c.rest r t = []) : Step M c (M.launch c r)

/-- The configurations reachable from memory `m₀`. -/
inductive Machine.Reachable (M : Machine ρ τ ι μ ℓ) (m₀ : μ) : Config ρ τ ι μ ℓ → Prop
  | init : Reachable M m₀ (M.init m₀)
  | step {c c' : Config ρ τ ι μ ℓ} (h : Reachable M m₀ c) (hstep : M.Step c c') :
      Reachable M m₀ c'

section Fire

variable {M : Machine ρ τ ι μ ℓ} (c : Config ρ τ ι μ ℓ) (r : ρ) (t : τ) (i : ι) (l : List ι)

/-- A step of a thread stays in its epoch. -/
@[simp] lemma fire_epoch : (M.fire c r t i l).epoch = c.epoch := rfl

/-- The memory changes by the effect of the instruction. -/
@[simp] lemma fire_mem : (M.fire c r t i l).mem = (M.effect c r t i).1 := rfl

/-- The rest of the program is left to the thread. -/
@[simp] lemma fire_rest_self : (M.fire c r t i l).rest r t = l := by
  simp [Machine.fire]

/-- Its registers change by the effect as well. -/
@[simp] lemma fire_reg_self : (M.fire c r t i l).reg r t = (M.effect c r t i).2 := by
  simp [Machine.fire]

/-- A step of one thread leaves the programs of the others alone. -/
lemma fire_rest_of_ne {r' : ρ} {t' : τ} (h : ¬ (r' = r ∧ t' = t)) :
    (M.fire c r t i l).rest r' t' = c.rest r' t' := by
  by_cases hr : r' = r
  · subst hr
    have ht : t' ≠ t := fun ht => h ⟨rfl, ht⟩
    simp [Machine.fire, ht]
  · simp [Machine.fire, hr]

/-- A step of one thread leaves the registers of the others alone. -/
lemma fire_reg_of_ne {r' : ρ} {t' : τ} (h : ¬ (r' = r ∧ t' = t)) :
    (M.fire c r t i l).reg r' t' = c.reg r' t' := by
  by_cases hr : r' = r
  · subst hr
    have ht : t' ≠ t := fun ht => h ⟨rfl, ht⟩
    simp [Machine.fire, ht]
  · simp [Machine.fire, hr]

end Fire

/-! ## Control -/

variable {M : Machine ρ τ ι μ ℓ} {m₀ : μ} {c c' : Config ρ τ ι μ ℓ}

/-- What remains of a program only shrinks while the agent stays in its epoch. -/
lemma mem_rest_of_mem_fire {r r' : ρ} {t t' : τ} {i j : ι} {l : List ι}
    (hrest : c.rest r t = i :: l) (hj : j ∈ (M.fire c r t i l).rest r' t') :
    j ∈ c.rest r' t' := by
  by_cases h : r' = r ∧ t' = t
  · obtain ⟨rfl, rfl⟩ := h
    rw [fire_rest_self] at hj
    rw [hrest]
    exact List.mem_cons_of_mem i hj
  · rwa [fire_rest_of_ne c r t i l h] at hj

/-- An instruction that a step takes off a program is the one that was executed. -/
lemma eq_of_mem_rest_of_not_mem_fire {r r' : ρ} {t t' : τ} {i j : ι} {l : List ι}
    (hrest : c.rest r t = i :: l) (hj : j ∈ c.rest r' t')
    (hj' : j ∉ (M.fire c r t i l).rest r' t') : r' = r ∧ t' = t ∧ j = i := by
  by_cases h : r' = r ∧ t' = t
  · obtain ⟨rfl, rfl⟩ := h
    rw [fire_rest_self] at hj'
    rw [hrest] at hj
    rcases List.mem_cons.mp hj with hji | hjl
    · exact ⟨rfl, rfl, hji⟩
    · exact absurd hjl hj'
  · rw [fire_rest_of_ne c r t i l h] at hj'
    exact absurd hj hj'

/-- A step changes whether `j` is ahead of some thread of an agent only by executing `j`. -/
lemma mem_rest_fire_iff {r : ρ} {t : τ} {i : ι} {l : List ι} (r' : ρ) (t' : τ) (j : ι)
    (hrest : c.rest r t = i :: l) (hne : ¬ (r' = r ∧ j = i)) :
    j ∈ (M.fire c r t i l).rest r' t' ↔ j ∈ c.rest r' t' := by
  refine ⟨mem_rest_of_mem_fire hrest, fun hin => ?_⟩
  by_contra hnot
  obtain ⟨hr, _, hj⟩ := eq_of_mem_rest_of_not_mem_fire hrest hin hnot
  exact hne ⟨hr, hj⟩

/-- An agent never gets past its last epoch. -/
lemma Machine.Reachable.epoch_le (h : M.Reachable m₀ c) (r : ρ) : c.epoch r ≤ M.epochs := by
  induction h with
  | init => exact Nat.zero_le _
  | @step c c' _ hstep ih =>
    cases hstep with
    | fire hrest _ => exact ih
    | @launch r' hmore _ =>
      by_cases hr : r = r'
      · subst hr
        rw [launch_epoch_self]
        exact hmore
      · rw [launch_epoch_of_ne c r' hr]
        exact ih

/-- What remains of a program is a suffix of the program of the current epoch. -/
lemma Machine.Reachable.rest_suffix (h : M.Reachable m₀ c) (r : ρ) (t : τ) :
    c.rest r t <:+ M.prog (c.epoch r) r t := by
  induction h with
  | init => exact List.nil_suffix
  | @step c c' _ hstep ih =>
    cases hstep with
    | @fire r' t' i l hrest _ =>
      by_cases hrt : r = r' ∧ t = t'
      · obtain ⟨rfl, rfl⟩ := hrt
        rw [fire_rest_self, fire_epoch]
        exact ((List.suffix_cons i l).trans (hrest ▸ List.suffix_rfl)).trans ih
      · rw [fire_rest_of_ne c r' t' i l hrt, fire_epoch]
        exact ih
    | @launch r' _ _ =>
      by_cases hr : r = r'
      · subst hr
        rw [launch_rest_self, launch_epoch_self]
      · rw [launch_rest_of_ne c r' hr, launch_epoch_of_ne c r' hr]
        exact ih

/-- The next instruction of a thread belongs to its program. -/
lemma Machine.Reachable.mem_prog (h : M.Reachable m₀ c) {r : ρ} {t : τ} {i : ι}
    (hi : i ∈ c.rest r t) : i ∈ M.prog (c.epoch r) r t :=
  (h.rest_suffix r t).subset hi

/-! ## Executed instructions -/

/-- Thread `t` of agent `r` has executed `i` in epoch `n`: the agent is past epoch `n`, or it is
in epoch `n` and `i` is no longer ahead.  Meant for instructions of the program of epoch `n`. -/
def Done (c : Config ρ τ ι μ ℓ) (n : ℕ) (r : ρ) (t : τ) (i : ι) : Prop :=
  n < c.epoch r ∨ n = c.epoch r ∧ i ∉ c.rest r t

instance [DecidableEq ι] {n : ℕ} {r : ρ} {t : τ} {i : ι} : Decidable (Done c n r t i) :=
  inferInstanceAs (Decidable (_ ∨ _))

variable {n : ℕ} {r : ρ} {t : τ} {i j : ι}

omit [DecidableEq ρ] [DecidableEq τ] in
/-- What is executed in the current epoch is no longer ahead. -/
lemma Done.not_mem (h : Done c n r t i) (hepoch : c.epoch r = n) : i ∉ c.rest r t := by
  rcases h with hlt | ⟨_, hnot⟩
  · exact absurd hepoch hlt.ne'
  · exact hnot

/-- An executed instruction stays executed. -/
lemma Done.step (h : Done c n r t i) (hstep : M.Step c c') : Done c' n r t i := by
  cases hstep with
  | @fire r' t' i' l hrest _ =>
    rcases h with hlt | ⟨heq, hnot⟩
    · exact Or.inl hlt
    · exact Or.inr ⟨heq, fun hmem => hnot (mem_rest_of_mem_fire hrest hmem)⟩
  | @launch r' _ _ =>
    by_cases hr : r = r'
    · subst hr
      left
      rw [launch_epoch_self]
      rcases h with hlt | ⟨heq, _⟩ <;> omega
    · unfold Done
      rw [launch_epoch_of_ne c r' hr, launch_rest_of_ne c r' hr]
      exact h

/-- The instruction a thread executes is executed after the step. -/
lemma Done.of_fire {l : List ι} (hnodup : (i :: l).Nodup) :
    Done (M.fire c r t i l) (c.epoch r) r t i := by
  refine Or.inr ⟨rfl, ?_⟩
  rw [fire_rest_self]
  exact (List.nodup_cons.mp hnodup).1

/-- An instruction is executed by the step that executes it, and by no other. -/
lemma eq_fire_of_not_done (hi : i ∈ M.prog n r t) (hstep : M.Step c c')
    (hnot : ¬ Done c n r t i) (hdone : Done c' n r t i) :
    c.epoch r = n ∧ ∃ l, c.rest r t = i :: l ∧ M.enabled c r t i ∧ c' = M.fire c r t i l := by
  cases hstep with
  | @fire r' t' i' l hrest henabled =>
    rcases hdone with hlt | ⟨heq, hnot'⟩
    · exact absurd (Or.inl hlt) hnot
    · have hmem : i ∈ c.rest r t := by
        by_contra hmem
        exact hnot (Or.inr ⟨heq, hmem⟩)
      obtain ⟨rfl, rfl, rfl⟩ := eq_of_mem_rest_of_not_mem_fire hrest hmem hnot'
      exact ⟨heq.symm, l, hrest, henabled, rfl⟩
  | @launch r' _ hidle =>
    exfalso
    by_cases hr : r = r'
    · subst hr
      have hle : ¬ n < c.epoch r := fun hlt => hnot (Or.inl hlt)
      have hne : n ≠ c.epoch r := fun heq =>
        hnot (Or.inr ⟨heq, by rw [hidle t]; exact List.not_mem_nil⟩)
      rcases hdone with hlt | ⟨heq, hnot'⟩
      · rw [launch_epoch_self] at hlt
        omega
      · rw [launch_epoch_self] at heq
        rw [launch_rest_self, ← heq] at hnot'
        exact hnot' hi
    · unfold Done at hdone hnot
      rw [launch_epoch_of_ne c r' hr, launch_rest_of_ne c r' hr] at hdone
      exact hnot hdone

omit [DecidableEq τ] in
/-- The start of an epoch executes nothing. -/
lemma done_launch_iff (hi : i ∈ M.prog n r t) {r' : ρ} (hidle : ∀ t, c.rest r' t = []) :
    Done (M.launch c r') n r t i ↔ Done c n r t i := by
  unfold Done
  by_cases hr : r = r'
  · subst hr
    rw [launch_epoch_self, launch_rest_self, hidle t]
    constructor
    · rintro (hlt | ⟨rfl, hnot⟩)
      · rcases Nat.lt_succ_iff_lt_or_eq.mp hlt with hlt | heq
        · exact Or.inl hlt
        · exact Or.inr ⟨heq, List.not_mem_nil⟩
      · exact absurd hi hnot
    · rintro (hlt | ⟨heq, _⟩) <;> exact Or.inl (by omega)
  · rw [launch_epoch_of_ne c r' hr, launch_rest_of_ne c r' hr]

/-- What is stable and holds right after `i` is executed holds wherever `i` is executed. -/
theorem Machine.Reachable.of_done {P : Config ρ τ ι μ ℓ → Prop} (hn : 0 < n)
    (hi : i ∈ M.prog n r t)
    (hstable : ∀ c c', M.Reachable m₀ c → M.Step c c' → P c → P c')
    (hexec : ∀ c l, M.Reachable m₀ c → c.epoch r = n → c.rest r t = i :: l →
      M.enabled c r t i → P (M.fire c r t i l))
    (h : M.Reachable m₀ c) (hdone : Done c n r t i) : P c := by
  induction h with
  | init =>
    rcases hdone with hlt | ⟨heq, _⟩
    · exact absurd hlt (Nat.not_lt_zero n)
    · exact absurd heq hn.ne'
  | @step c c' hc hstep ih =>
    by_cases hbefore : Done c n r t i
    · exact hstable c c' hc hstep (ih hbefore)
    · obtain ⟨hepoch, l, hrest, henabled, rfl⟩ := eq_fire_of_not_done hi hstep hbefore hdone
      exact hexec c l hc hepoch hrest henabled

/-- The form of `Reachable.of_done` for a fact that the guard of `i` establishes. -/
theorem Machine.Reachable.of_done_guard {P : Config ρ τ ι μ ℓ → Prop} (hn : 0 < n)
    (hi : i ∈ M.prog n r t)
    (hstable : ∀ c c', M.Reachable m₀ c → M.Step c c' → P c → P c')
    (hguard : ∀ c l, M.Reachable m₀ c → c.epoch r = n → c.rest r t = i :: l →
      M.enabled c r t i → P c)
    (h : M.Reachable m₀ c) (hdone : Done c n r t i) : P c :=
  h.of_done hn hi hstable
    (fun c l hc hepoch hrest henabled =>
      hstable c _ hc (Machine.Step.fire hrest henabled) (hguard c l hc hepoch hrest henabled))
    hdone

/-! ## Stages and barriers -/

/-- Along every program the stage never decreases and no instruction occurs twice; there is no
program before the first epoch. -/
structure Machine.Staged (M : Machine ρ τ ι μ ℓ) (stage : ι → ℕ) : Prop where
  prog_zero : ∀ r t, M.prog 0 r t = []
  sorted : ∀ n r t, (M.prog n r t).Pairwise fun i j => stage i ≤ stage j
  nodup : ∀ n r t, (M.prog n r t).Nodup

/-- A piece of a program whose stages lie in `[lo, hi)`: the stage never decreases along it and
no instruction occurs twice. -/
structure Piece (stage : ι → ℕ) (lo hi : ℕ) (l : List ι) : Prop where
  sorted : l.Pairwise fun i j => stage i ≤ stage j
  nodup : l.Nodup
  lower : ∀ i ∈ l, lo ≤ stage i
  upper : ∀ i ∈ l, stage i < hi

section Piece

variable {stage : ι → ℕ} {lo hi : ℕ} {l l' : List ι}

/-- An empty piece fits anywhere. -/
lemma Piece.nil : Piece stage lo hi [] :=
  ⟨List.Pairwise.nil, List.nodup_nil, by simp, by simp⟩

/-- A list of instructions of one stage is a piece if it does not repeat. -/
lemma Piece.of_const (hnodup : l.Nodup) (hstage : ∀ i ∈ l, stage i = lo) (hhi : lo < hi) :
    Piece stage lo hi l where
  sorted := by
    refine List.Pairwise.imp_of_mem (fun hi hj _ => ?_) hnodup
    rw [hstage _ hi, hstage _ hj]
  nodup := hnodup
  lower i hi := (hstage i hi).ge
  upper i hi := by
    rw [hstage i hi]
    exact hhi

/-- One instruction is a piece of its stage. -/
lemma Piece.singleton {i : ι} (hlo : lo ≤ stage i) (hhi : stage i < hi) :
    Piece stage lo hi [i] :=
  ⟨List.pairwise_singleton _ _, List.nodup_singleton _, by simpa, by simpa⟩

/-- A piece stays one when its bounds are widened. -/
lemma Piece.mono {lo' hi' : ℕ} (h : Piece stage lo hi l) (hlo : lo' ≤ lo) (hhi : hi ≤ hi') :
    Piece stage lo' hi' l where
  sorted := h.sorted
  nodup := h.nodup
  lower i hi := hlo.trans (h.lower i hi)
  upper i hi := (h.upper i hi).trans_le hhi

/-- Consecutive pieces form one piece. -/
lemma Piece.append (mid : ℕ) (h : Piece stage lo mid l) (h' : Piece stage mid hi l')
    (hlo : lo ≤ mid) (hhi : mid ≤ hi) : Piece stage lo hi (l ++ l') where
  sorted := List.pairwise_append.mpr ⟨h.sorted, h'.sorted, fun i hi j hj =>
    ((h.upper i hi).trans_le (h'.lower j hj)).le⟩
  nodup := List.nodup_append.mpr ⟨h.nodup, h'.nodup, fun i hi j hj heq => by
    subst heq
    exact absurd (h.upper i hi) (Nat.not_lt.mpr (h'.lower i hj))⟩
  lower i hi := by
    rcases List.mem_append.mp hi with hil | hil
    · exact h.lower i hil
    · exact hlo.trans (h'.lower i hil)
  upper i hi := by
    rcases List.mem_append.mp hi with hil | hil
    · exact (h.upper i hil).trans_le hhi
    · exact h'.upper i hil

/-- An instruction before a piece. -/
lemma Piece.cons {i : ι} (mid : ℕ) (hlo : lo ≤ stage i) (hmid : stage i < mid)
    (h : Piece stage mid hi l) (hhi : mid ≤ hi) : Piece stage lo hi (i :: l) :=
  Piece.append mid (Piece.singleton hlo hmid) h (hlo.trans hmid.le) hhi

/-- A piece that is only there under a condition. -/
lemma Piece.ite {p : Prop} [Decidable p] (h : Piece stage lo hi l) :
    Piece stage lo hi (if p then l else []) := by
  split
  · exact h
  · exact Piece.nil

/-- The rounds of a loop, each in its own range of stages, form one piece. -/
lemma Piece.flatMap_range {body : ℕ → List ι} {width : ℕ} {count : ℕ}
    (hbody : ∀ k < count, Piece stage (lo + width * k) (lo + width * (k + 1)) (body k)) :
    Piece stage lo (lo + width * count) ((List.range count).flatMap body) := by
  induction count with
  | zero => simpa using Piece.nil
  | succ count ih =>
    have hprev := ih fun k hk => hbody k (Nat.lt_succ_of_lt hk)
    rw [List.range_succ, List.flatMap_append, List.flatMap_singleton]
    exact hprev.append _ (hbody count (Nat.lt_succ_self count)) (Nat.le_add_right _ _)
      (Nat.add_le_add_left (Nat.mul_le_mul_left _ (Nat.le_succ _)) _)

end Piece

/-- Thread `t` of agent `r` has reached `j`: `j` is its next instruction or behind it. -/
def Arrived (c : Config ρ τ ι μ ℓ) (r : ρ) (t : τ) (j : ι) : Prop :=
  j ∉ (c.rest r t).tail

variable {stage : ι → ℕ}

/-- Once a thread has reached `j`, what has a smaller stage is no longer ahead of it. -/
lemma Arrived.not_mem_rest (hM : M.Staged stage) (h : M.Reachable m₀ c)
    (hj : j ∈ M.prog (c.epoch r) r t) (harrived : Arrived c r t j) (hlt : stage i < stage j) :
    i ∉ c.rest r t := by
  intro hi
  obtain ⟨done, hdone⟩ := h.rest_suffix r t
  have hsorted := hM.sorted (c.epoch r) r t
  rw [← hdone] at hj hsorted
  obtain ⟨_, hrest, hacross⟩ := List.pairwise_append.mp hsorted
  rcases List.mem_append.mp hj with hjdone | hjrest
  · have := hacross j hjdone i hi
    omega
  · cases hcase : c.rest r t with
    | nil => rw [hcase] at hjrest; cases hjrest
    | cons k l =>
      unfold Arrived at harrived
      rw [hcase] at hjrest harrived hi hrest
      have hjk : j = k := by
        rcases List.mem_cons.mp hjrest with hjk | hjl
        · exact hjk
        · exact absurd hjl harrived
      subst hjk
      rcases List.mem_cons.mp hi with rfl | hil
      · omega
      · have := (List.pairwise_cons.mp hrest).1 i hil
        omega

/-- Once a thread has reached `j`, what has a smaller stage is executed. -/
lemma Arrived.done (hM : M.Staged stage) (h : M.Reachable m₀ c)
    (hj : j ∈ M.prog (c.epoch r) r t) (harrived : Arrived c r t j) (hlt : stage i < stage j) :
    Done c (c.epoch r) r t i :=
  Or.inr ⟨rfl, harrived.not_mem_rest hM h hj hlt⟩

/-- A thread has reached its next instruction. -/
lemma Arrived.of_head (hM : M.Staged stage) (h : M.Reachable m₀ c) {l : List ι}
    (hrest : c.rest r t = j :: l) : Arrived c r t j := by
  unfold Arrived
  rw [hrest]
  have hnodup := (hM.nodup (c.epoch r) r t).sublist (h.rest_suffix r t).sublist
  rw [hrest] at hnodup
  exact (List.nodup_cons.mp hnodup).1

/-- What has a smaller stage than the next instruction of a thread is executed. -/
lemma done_of_head (hM : M.Staged stage) (h : M.Reachable m₀ c) {l : List ι}
    (hrest : c.rest r t = j :: l) (hlt : stage i < stage j) : Done c (c.epoch r) r t i :=
  (Arrived.of_head hM h hrest).done hM h
    (h.mem_prog (by rw [hrest]; exact List.mem_cons_self)) hlt

/-- The instruction a thread executes is executed after the step. -/
lemma done_fire (hM : M.Staged stage) (h : M.Reachable m₀ c) {l : List ι}
    (hrest : c.rest r t = i :: l) : Done (M.fire c r t i l) (c.epoch r) r t i := by
  apply Done.of_fire
  rw [← hrest]
  exact (hM.nodup (c.epoch r) r t).sublist (h.rest_suffix r t).sublist

/-- A step of one thread executes the instruction it executes, and nothing else. -/
lemma done_fire_iff (hM : M.Staged stage) (h : M.Reachable m₀ c) {r' : ρ} {t' : τ} {l : List ι}
    (hrest : c.rest r' t' = j :: l) :
    Done (M.fire c r' t' j l) n r t i ↔
      Done c n r t i ∨ (n = c.epoch r' ∧ r = r' ∧ t = t' ∧ i = j) := by
  constructor
  · rintro (hlt | ⟨heq, hnot⟩)
    · exact Or.inl (Or.inl hlt)
    · by_cases hmem : i ∈ c.rest r t
      · obtain ⟨rfl, rfl, rfl⟩ := eq_of_mem_rest_of_not_mem_fire hrest hmem hnot
        exact Or.inr ⟨heq, rfl, rfl, rfl⟩
      · exact Or.inl (Or.inr ⟨heq, hmem⟩)
  · rintro (hdone | ⟨rfl, rfl, rfl, rfl⟩)
    · rcases hdone with hlt | ⟨heq, hnot⟩
      · exact Or.inl hlt
      · exact Or.inr ⟨heq, fun hmem => hnot (mem_rest_of_mem_fire hrest hmem)⟩
    · exact done_fire hM h hrest

/-- What the execution of `i` establishes and every later step of the same epoch preserves holds
for the rest of the epoch. -/
theorem Machine.Reachable.of_done_epoch (hM : M.Staged stage) {P : Config ρ τ ι μ ℓ → Prop}
    (hn : 0 < n) (hi : i ∈ M.prog n r t)
    (hexec : ∀ c l, M.Reachable m₀ c → c.epoch r = n → c.rest r t = i :: l →
      M.enabled c r t i → P (M.fire c r t i l))
    (hfire : ∀ c r' t' j l, M.Reachable m₀ c → c.epoch r = n → i ∉ c.rest r t →
      c.rest r' t' = j :: l → M.enabled c r' t' j → P c → P (M.fire c r' t' j l))
    (hlaunch : ∀ c r', M.Reachable m₀ c → r' ≠ r → M.Step c (M.launch c r') → P c →
      P (M.launch c r'))
    (h : M.Reachable m₀ c) (hepoch : c.epoch r = n) (hnot : i ∉ c.rest r t) : P c := by
  have key : Done c n r t i ∧ (c.epoch r = n → P c) := by
    refine h.of_done (P := fun c => Done c n r t i ∧ (c.epoch r = n → P c)) hn hi ?_ ?_
      (Or.inr ⟨hepoch.symm, hnot⟩)
    · rintro c c' hc hstep ⟨hdone, hP⟩
      refine ⟨hdone.step hstep, fun hepoch' => ?_⟩
      cases hstep with
      | @fire r' t' j l hrest henabled =>
        rcases hdone with hlt | ⟨_, hnot⟩
        · exact absurd hepoch' hlt.ne'
        · exact hfire c r' t' j l hc hepoch' hnot hrest henabled (hP hepoch')
      | @launch r' hmore hidle =>
        by_cases hr : r' = r
        · subst hr
          rw [launch_epoch_self] at hepoch'
          rcases hdone with hlt | ⟨heq, _⟩ <;> omega
        · rw [launch_epoch_of_ne c r' (Ne.symm hr)] at hepoch'
          exact hlaunch c r' hc hr (Machine.Step.launch hmore hidle) (hP hepoch')
    · intro c l hc hepoch hrest henabled
      refine ⟨?_, fun _ => hexec c l hc hepoch hrest henabled⟩
      rw [← hepoch]
      exact done_fire hM hc hrest
  exact key.2 hepoch

/-- An executed instruction has what has a smaller stage behind it. -/
lemma Done.of_stage_lt (hM : M.Staged stage) (h : M.Reachable m₀ c) (hj : j ∈ M.prog n r t)
    (hdone : Done c n r t j) (hlt : stage i < stage j) : Done c n r t i := by
  rcases hdone with hpast | ⟨rfl, hnot⟩
  · exact Or.inl hpast
  · have harrived : Arrived c r t j := fun hmem => hnot (List.mem_of_mem_tail hmem)
    exact harrived.done hM h hj hlt

/-- A barrier `j` that opens only when all threads of a group have reached it puts behind it
what has a smaller stage in each of them. -/
theorem Machine.Reachable.done_of_barrier (hM : M.Staged stage) (group : τ → Prop) (hn : 0 < n)
    (hj : j ∈ M.prog n r t) (hgroup : ∀ t', group t' → j ∈ M.prog n r t')
    (hopen : ∀ c, M.enabled c r t j → ∀ t', group t' → Arrived c r t' j)
    (h : M.Reachable m₀ c) (hdone : Done c n r t j) {t' : τ} (ht' : group t')
    (hlt : stage i < stage j) : Done c n r t' i := by
  refine h.of_done_guard (P := fun c => Done c n r t' i) hn hj
    (fun _ _ _ hstep hd => hd.step hstep) ?_ hdone
  rintro c l hc rfl _ henabled
  exact (hopen c henabled t' ht').done hM hc (hgroup t' ht') hlt

/-- What is ahead of a thread lies behind an instruction it can be held up at. -/
lemma Machine.Reachable.exists_head (hM : M.Staged stage) (h : M.Reachable m₀ c)
    (hj : j ∈ c.rest r t) : ∃ i l, c.rest r t = i :: l ∧ stage i ≤ stage j := by
  have hsorted := (hM.sorted (c.epoch r) r t).sublist (h.rest_suffix r t).sublist
  cases hrest : c.rest r t with
  | nil => rw [hrest] at hj; cases hj
  | cons i l =>
    rw [hrest] at hj hsorted
    refine ⟨i, l, rfl, ?_⟩
    rcases List.mem_cons.mp hj with rfl | hjl
    · exact le_rfl
    · exact (List.pairwise_cons.mp hsorted).1 j hjl

/-- A thread that has not reached `j`, alone in its stage, is held up at a smaller stage. -/
lemma Machine.Reachable.exists_head_of_not_arrived (hM : M.Staged stage) (h : M.Reachable m₀ c)
    (hnot : ¬ Arrived c r t j)
    (halone : ∀ i ∈ M.prog (c.epoch r) r t, stage i = stage j → i = j) :
    ∃ i l, c.rest r t = i :: l ∧ stage i < stage j := by
  have hj : j ∈ (c.rest r t).tail := not_not.mp hnot
  obtain ⟨i, l, hrest, hle⟩ := h.exists_head hM (List.mem_of_mem_tail hj)
  refine ⟨i, l, hrest, lt_of_le_of_ne hle fun heq => ?_⟩
  have hi := h.mem_prog (show i ∈ c.rest r t by rw [hrest]; exact List.mem_cons_self)
  obtain rfl := halone i hi heq
  have harrived := Arrived.of_head hM h hrest
  exact harrived hj

/-! ## Counting arrivals -/

section Counter

variable [Fintype τ] [DecidableEq ι]

/-- The threads of agent `r` that have executed `i` in the current epoch. -/
def Machine.fired (M : Machine ρ τ ι μ ℓ) (c : Config ρ τ ι μ ℓ) (r : ρ) (i : ι) : Finset τ :=
  Finset.univ.filter fun t => i ∈ M.prog (c.epoch r) r t ∧ i ∉ c.rest r t

omit [DecidableEq ρ] [DecidableEq τ] in
/-- A thread has fired what is of its program and no longer left. -/
lemma mem_fired : t ∈ M.fired c r i ↔ i ∈ M.prog (c.epoch r) r t ∧ i ∉ c.rest r t := by
  simp [Machine.fired]

/-- The thread that executes `i` joins those that have executed it. -/
lemma fired_fire_self (hM : M.Staged stage) (h : M.Reachable m₀ c) {l : List ι}
    (hrest : c.rest r t = i :: l) :
    t ∉ M.fired c r i ∧ M.fired (M.fire c r t i l) r i = insert t (M.fired c r i) := by
  have hmem : i ∈ c.rest r t := by rw [hrest]; exact List.mem_cons_self
  have hprog := h.mem_prog hmem
  constructor
  · rw [mem_fired]
    exact fun hfired => hfired.2 hmem
  · ext t'
    rw [Finset.mem_insert, mem_fired, mem_fired, fire_epoch]
    constructor
    · rintro ⟨hprog', hnot⟩
      by_cases ht : t' = t
      · exact Or.inl ht
      · rw [fire_rest_of_ne c r t i l (fun heq => ht heq.2)] at hnot
        exact Or.inr ⟨hprog', hnot⟩
    · rintro (rfl | ⟨hprog', hnot⟩)
      · refine ⟨hprog, ?_⟩
        rcases done_fire hM h hrest with hlt | ⟨_, hnot⟩
        · exact absurd hlt (Nat.lt_irrefl _)
        · exact hnot
      · exact ⟨hprog', fun hin => hnot (mem_rest_of_mem_fire hrest hin)⟩

/-- Executing another instruction, or one of another agent, adds no thread. -/
lemma fired_fire_of_ne {r' : ρ} {t' : τ} {l : List ι} (hrest : c.rest r' t' = j :: l)
    (hne : ¬ (r' = r ∧ j = i)) : M.fired (M.fire c r' t' j l) r i = M.fired c r i := by
  ext t
  rw [mem_fired, mem_fired, fire_epoch,
    mem_rest_fire_iff r t i hrest fun heq => hne ⟨heq.1.symm, heq.2.symm⟩]

/-- A counter that the start of an epoch clears, that `a` increments and that no other
instruction touches holds, once the agent has started, the number of threads that have executed
`a`.  The increment may wrap around, provided it does not do so below the number of threads. -/
theorem Machine.Reachable.counter_eq (hM : M.Staged stage) (cnt : μ → ℕ) (bump : ℕ → ℕ) {a : ι}
    (hstart : ∀ m, cnt (M.start r m) = 0)
    (hstart_ne : ∀ r' m, r' ≠ r → cnt (M.start r' m) = cnt m)
    (hhit : ∀ c t, cnt (M.effect c r t a).1 = bump (cnt c.mem))
    (hmiss : ∀ c r' t i, ¬ (r' = r ∧ i = a) → cnt (M.effect c r' t i).1 = cnt c.mem)
    (hbump : ∀ k, k < Fintype.card τ → bump k = k + 1) (h : M.Reachable m₀ c)
    (hpos : 0 < c.epoch r) : cnt c.mem = (M.fired c r a).card := by
  induction h with
  | init => exact absurd hpos (Nat.lt_irrefl 0)
  | @step c c' hc hstep ih =>
    cases hstep with
    | @fire r' t i l hrest _ =>
      replace ih := ih hpos
      by_cases hit : r' = r ∧ i = a
      · obtain ⟨rfl, rfl⟩ := hit
        obtain ⟨hnot, hinsert⟩ := fired_fire_self hM hc hrest
        have hroom : (M.fired c r' i).card < Fintype.card τ :=
          Finset.card_lt_univ_of_notMem hnot
        rw [hinsert, Finset.card_insert_of_notMem hnot, fire_mem, hhit, ih]
        exact hbump _ hroom
      · rw [fired_fire_of_ne hrest hit, fire_mem, hmiss c r' t i hit, ih]
    | @launch r' _ _ =>
      by_cases hr : r' = r
      · subst hr
        have hempty : M.fired (M.launch c r') r' a = ∅ := by
          ext t
          simp [mem_fired]
        rw [hempty, Finset.card_empty]
        exact hstart _
      · have hsame : M.fired (M.launch c r') r a = M.fired c r a := by
          ext t
          rw [mem_fired, mem_fired, launch_epoch_of_ne c r' (Ne.symm hr),
            launch_rest_of_ne c r' (Ne.symm hr)]
        rw [launch_epoch_of_ne c r' (Ne.symm hr)] at hpos
        rw [hsame, launch_mem, hstart_ne r' _ hr, ih hpos]

omit [DecidableEq ρ] [DecidableEq τ] in
/-- When as many threads have executed `i` as there are threads with `i` in their program, all
of them have. -/
lemma not_mem_rest_of_card_le {S : Finset τ} (hS : ∀ t, i ∈ M.prog (c.epoch r) r t → t ∈ S)
    (hcard : S.card ≤ (M.fired c r i).card) (ht : t ∈ S) : i ∉ c.rest r t := by
  have hsub : M.fired c r i ⊆ S := fun t' ht' => hS t' (mem_fired.mp ht').1
  rw [← Finset.eq_of_subset_of_card_le hsub hcard] at ht
  exact (mem_fired.mp ht).2

end Counter

/-! ## Progress -/

/-- Agent `r` at stage `k` has someone to wait for: an agent that may start its next epoch, or an
unfinished thread in an earlier epoch or at a smaller stage. -/
def Machine.Behind (M : Machine ρ τ ι μ ℓ) (stage : ι → ℕ) (c : Config ρ τ ι μ ℓ) (r : ρ)
    (k : ℕ) : Prop :=
  (∃ r', c.epoch r' < M.epochs ∧ ∀ t', c.rest r' t' = []) ∨
    ∃ r' t' i' l', c.rest r' t' = i' :: l' ∧
      (c.epoch r' < c.epoch r ∨ c.epoch r' = c.epoch r ∧ stage i' < k)

/-- An agent in an earlier epoch is someone to wait for. -/
lemma Machine.Behind.of_epoch_lt (h : M.Reachable m₀ c) {r' : ρ} {k : ℕ}
    (hlt : c.epoch r' < c.epoch r) : M.Behind stage c r k := by
  by_cases hidle : ∀ t', c.rest r' t' = []
  · exact Or.inl ⟨r', hlt.trans_le (h.epoch_le r), hidle⟩
  · obtain ⟨t', hne⟩ := not_forall.mp hidle
    obtain ⟨i', l', hrest⟩ := List.exists_cons_of_ne_nil hne
    exact Or.inr ⟨r', t', i', l', hrest, Or.inl hlt⟩

/-- A thread in the same epoch with something of a smaller stage ahead is someone to wait for. -/
lemma Machine.Behind.of_mem_rest (hM : M.Staged stage) (h : M.Reachable m₀ c) {r' : ρ} {k : ℕ}
    (hepoch : c.epoch r' = c.epoch r) (hj : j ∈ c.rest r' t) (hlt : stage j < k) :
    M.Behind stage c r k := by
  obtain ⟨i', l', hrest, hle⟩ := h.exists_head hM hj
  exact Or.inr ⟨r', t, i', l', hrest, Or.inr ⟨hepoch, hle.trans_lt hlt⟩⟩

/-- A thread that a barrier, alone in its stage, still waits for is someone to wait for. -/
lemma Machine.Behind.of_not_arrived (hM : M.Staged stage) (h : M.Reachable m₀ c)
    (hnot : ¬ Arrived c r t j)
    (halone : ∀ i ∈ M.prog (c.epoch r) r t, stage i = stage j → i = j) :
    M.Behind stage c r (stage j) := by
  obtain ⟨i, l, hrest, hlt⟩ := h.exists_head_of_not_arrived hM hnot halone
  exact Or.inr ⟨r, t, i, l, hrest, Or.inr ⟨rfl, hlt⟩⟩

omit [DecidableEq ρ] [DecidableEq τ] in
/-- If a blocked instruction always has an unfinished thread in an earlier epoch or at a smaller
stage to wait for, or an agent that may start its next epoch, then whenever some thread is
unfinished some thread can execute its next instruction or some agent can start its next
epoch. -/
theorem exists_enabled_of_stage (stage : ι → ℕ)
    (hblock : ∀ r t i l, c.rest r t = i :: l → ¬ M.enabled c r t i →
      M.Behind stage c r (stage i))
    (hrun : ∃ r t, c.rest r t ≠ []) :
    (∃ r t i l, c.rest r t = i :: l ∧ M.enabled c r t i) ∨
      ∃ r, c.epoch r < M.epochs ∧ ∀ t, c.rest r t = [] := by
  have key : ∀ p : ℕ ×ₗ ℕ, ∀ r t i l, c.rest r t = i :: l →
      toLex (c.epoch r, stage i) = p →
      (∃ r t i l, c.rest r t = i :: l ∧ M.enabled c r t i) ∨
        ∃ r, c.epoch r < M.epochs ∧ ∀ t, c.rest r t = [] := by
    intro p
    induction p using WellFoundedLT.induction with
    | ind p ih =>
      intro r t i l hrest hp
      by_cases henabled : M.enabled c r t i
      · exact Or.inl ⟨r, t, i, l, hrest, henabled⟩
      · rcases hblock r t i l hrest henabled with hlaunch | ⟨r', t', i', l', hrest', hless⟩
        · exact Or.inr hlaunch
        · refine ih (toLex (c.epoch r', stage i')) ?_ r' t' i' l' hrest' rfl
          rw [← hp, Prod.Lex.toLex_lt_toLex]
          exact hless
  obtain ⟨r, t, hne⟩ := hrun
  obtain ⟨i, l, hrest⟩ := List.exists_cons_of_ne_nil hne
  exact key _ r t i l hrest rfl

/-! ## Runs that end -/

/-- Agent `r` still has a program to finish or an epoch to start. -/
def Machine.Unfinished (M : Machine ρ τ ι μ ℓ) (c : Config ρ τ ι μ ℓ) (r : ρ) : Prop :=
  c.epoch r < M.epochs ∨ ∃ t, c.rest r t ≠ []

/-- An agent that is not unfinished has come to the end of its last epoch. -/
lemma Machine.Reachable.of_not_unfinished (h : M.Reachable m₀ c) {r : ρ}
    (hr : ¬ M.Unfinished c r) : c.epoch r = M.epochs ∧ ∀ t, c.rest r t = [] := by
  obtain ⟨hmore, hbusy⟩ := not_or.mp hr
  exact ⟨(h.epoch_le r).antisymm (Nat.le_of_not_lt hmore), fun t =>
    not_not.mp fun hne => hbusy ⟨t, hne⟩⟩

/-- What is reachable in few epochs is reachable in more. -/
lemma Machine.Reachable.mono_epochs {e : ℕ} (hle : e ≤ M.epochs)
    (h : Machine.Reachable { M with epochs := e } m₀ c) : M.Reachable m₀ c := by
  induction h with
  | init => exact Machine.Reachable.init
  | @step c c' _ hstep ih =>
    refine ih.step ?_
    cases hstep with
    | fire hrest henabled => exact Machine.Step.fire hrest henabled
    | launch hmore hidle => exact Machine.Step.launch (Nat.lt_of_lt_of_le hmore hle) hidle

section Termination

variable [Fintype τ]

/-- The number of instructions an agent has ahead of it in its current epoch. -/
def Config.ahead (c : Config ρ τ ι μ ℓ) (r : ρ) : ℕ := ∑ t, (c.rest r t).length

omit [DecidableEq ρ] [DecidableEq τ] in
/-- Nothing is ahead when all threads are through. -/
lemma ahead_eq_zero_iff : c.ahead r = 0 ↔ ∀ t, c.rest r t = [] := by
  simp [Config.ahead]

/-- A step of a thread of `r` leaves one instruction less ahead of `r`. -/
lemma ahead_fire_self {l : List ι} (hrest : c.rest r t = i :: l) :
    (M.fire c r t i l).ahead r + 1 = c.ahead r := by
  have hothers : ∑ t' ∈ Finset.univ.erase t, ((M.fire c r t i l).rest r t').length =
      ∑ t' ∈ Finset.univ.erase t, (c.rest r t').length := by
    refine Finset.sum_congr rfl fun t' ht' => ?_
    rw [fire_rest_of_ne c r t i l fun heq => (Finset.mem_erase.mp ht').1 heq.2]
  unfold Config.ahead
  rw [← Finset.add_sum_erase _ _ (Finset.mem_univ t),
    ← Finset.add_sum_erase Finset.univ (fun t' => (c.rest r t').length) (Finset.mem_univ t),
    hothers, fire_rest_self, hrest, List.length_cons]
  omega

/-- A step of a thread of another agent leaves what is ahead of `r` alone. -/
lemma ahead_fire_of_ne {r' : ρ} {t' : τ} {l : List ι} (hr : r ≠ r') :
    (M.fire c r' t' i l).ahead r = c.ahead r := by
  unfold Config.ahead
  refine Finset.sum_congr rfl fun t _ => ?_
  rw [fire_rest_of_ne c r' t' i l fun heq => hr heq.1]

/-- An agent that is never held up as long as only its own threads move runs its program to the
end. -/
theorem Machine.Reachable.exists_idle {P : Config ρ τ ι μ ℓ → Prop} (r : ρ)
    (hmove : ∀ c, M.Reachable m₀ c → P c → (∃ t, c.rest r t ≠ []) →
      ∃ t i l, c.rest r t = i :: l ∧ M.enabled c r t i ∧ P (M.fire c r t i l))
    (h : M.Reachable m₀ c) (hP : P c) :
    ∃ c', M.Reachable m₀ c' ∧ P c' ∧ ∀ t, c'.rest r t = [] := by
  induction hk : c.ahead r generalizing c with
  | zero => exact ⟨c, h, hP, ahead_eq_zero_iff.mp hk⟩
  | succ k ih =>
    have hbusy : ∃ t, c.rest r t ≠ [] := by
      by_contra hidle
      rw [ahead_eq_zero_iff.mpr fun t => not_not.mp (not_exists.mp hidle t)] at hk
      exact absurd hk (Nat.succ_ne_zero k).symm
    obtain ⟨t, i, l, hrest, henabled, hP'⟩ := hmove c h hP hbusy
    refine ih (h.step (Machine.Step.fire hrest henabled)) hP' ?_
    have := ahead_fire_self (M := M) hrest
    omega

variable [Fintype ρ]

/-- The number of instructions and epoch starts an agent has ahead of it in the whole run. -/
def Machine.left (M : Machine ρ τ ι μ ℓ) (c : Config ρ τ ι μ ℓ) (r : ρ) : ℕ :=
  c.ahead r + (M.epochs - c.epoch r) +
    ∑ n ∈ Finset.Ioc (c.epoch r) M.epochs, ∑ t, (M.prog n r t).length

omit [Fintype ρ] in
/-- A step of a thread of `r` leaves `r` one thing less to do. -/
lemma left_fire_self {l : List ι} (hrest : c.rest r t = i :: l) :
    M.left (M.fire c r t i l) r + 1 = M.left c r := by
  have := ahead_fire_self (M := M) hrest
  unfold Machine.left
  rw [fire_epoch]
  omega

omit [DecidableEq τ] [Fintype ρ] in
/-- The start of an epoch leaves `r` one thing less to do. -/
lemma left_launch_self (hmore : c.epoch r < M.epochs) (hidle : ∀ t, c.rest r t = []) :
    M.left (M.launch c r) r + 1 = M.left c r := by
  have hahead : (M.launch c r).ahead r = ∑ t, (M.prog (c.epoch r + 1) r t).length := by
    unfold Config.ahead
    rw [launch_rest_self]
  have hsplit : ∑ n ∈ Finset.Ioc (c.epoch r) M.epochs, ∑ t, (M.prog n r t).length =
      ∑ t, (M.prog (c.epoch r + 1) r t).length +
        ∑ n ∈ Finset.Ioc (c.epoch r + 1) M.epochs, ∑ t, (M.prog n r t).length := by
    rw [← Finset.insert_Ioc_add_one_left_eq_Ioc hmore, Finset.sum_insert (by simp)]
  unfold Machine.left
  rw [hahead, launch_epoch_self, hsplit, ahead_eq_zero_iff.mpr hidle]
  omega

/-- Every step leaves less to do. -/
lemma left_lt_of_step (hstep : M.Step c c') : ∑ r, M.left c' r < ∑ r, M.left c r := by
  cases hstep with
  | @fire r t i l hrest _ =>
    refine Finset.sum_lt_sum (fun r' _ => ?_) ⟨r, Finset.mem_univ r, ?_⟩
    · by_cases hr : r' = r
      · subst hr
        have := left_fire_self (M := M) hrest
        omega
      · unfold Machine.left
        rw [ahead_fire_of_ne hr, fire_epoch]
    · have := left_fire_self (M := M) hrest
      omega
  | @launch r hmore hidle =>
    refine Finset.sum_lt_sum (fun r' _ => ?_) ⟨r, Finset.mem_univ r, ?_⟩
    · by_cases hr : r' = r
      · subst hr
        have := left_launch_self hmore hidle
        omega
      · unfold Machine.left Config.ahead
        rw [launch_rest_of_ne c r hr, launch_epoch_of_ne c r hr]
    · have := left_launch_self hmore hidle
      omega

/-- A machine that never gets stuck has a run that finishes every agent. -/
theorem Machine.exists_finished
    (hlive : ∀ c, M.Reachable m₀ c → (∃ r, M.Unfinished c r) → ∃ c', M.Step c c') :
    ∃ c, M.Reachable m₀ c ∧ ∀ r, ¬ M.Unfinished c r := by
  have key : ∀ k c, M.Reachable m₀ c → ∑ r, M.left c r = k →
      ∃ c', M.Reachable m₀ c' ∧ ∀ r, ¬ M.Unfinished c' r := by
    intro k
    induction k using Nat.strong_induction_on with
    | h k ih =>
      intro c hc hk
      by_cases hdone : ∃ r, M.Unfinished c r
      · obtain ⟨c', hstep⟩ := hlive c hc hdone
        exact ih _ (hk ▸ left_lt_of_step hstep) c' (hc.step hstep) rfl
      · exact ⟨c, hc, not_exists.mp hdone⟩
  exact key _ _ Machine.Reachable.init rfl

end Termination

end Epochs
