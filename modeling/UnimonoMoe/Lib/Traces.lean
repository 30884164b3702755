import UnimonoMoe.Lib.Executions
import UnimonoMoe.Lib.Interleaving

/-!
# Runs taken apart into epochs

For the machines of `Epochs`.  A trace lists what has been executed, in the order of execution, with
the epoch and the thread of every instruction (`Machine.Traced`).  The part of a trace that belongs
to an epoch interleaves the programs of the epoch once all agents are through
(`Traced.interleaves`).

Agents drift, so instructions of different epochs mix in a trace.  When the machine keeps its epochs
apart for some of the instructions, that is, when a thread that is about to execute one of them has
all of them of all earlier epochs behind it (`Machine.Separates`), then these instructions appear in
the order of their epochs (`Traced.pairwise_epoch`), and the trace, restricted to them, is one
interleaving after the other (`Traced.eq_flatMap`).
-/

namespace Epochs

open Interleaving

variable {ρ τ ι μ ℓ : Type*}

/-! ## Lists in the order of a key -/

section Keys

variable {α : Type*} {key : α → ℕ} {l : List α} {N : ℕ}

/-- A list in the order of a key consists of the parts with equal keys, one after the other. -/
lemma eq_flatMap_of_pairwise (hsorted : l.Pairwise fun a b => key a ≤ key b)
    (hlt : ∀ a ∈ l, key a < N) :
    l = (List.range N).flatMap fun n => l.filter fun a => key a = n := by
  induction l using List.reverseRecOn with
  | nil => simp
  | append_singleton l a ih =>
    obtain ⟨hl, -, hle⟩ := List.pairwise_append.mp hsorted
    have hle : ∀ b ∈ l, key b ≤ key a := fun b hb => hle b hb a List.mem_cons_self
    have ha : key a < N := hlt a (by simp)
    have ih := ih hl fun b hb => hlt b (List.mem_append_left _ hb)
    -- the last element belongs to the part of its key, and the later parts are empty
    obtain ⟨k, rfl⟩ := Nat.exists_eq_add_of_lt ha
    have hempty : ∀ n, key a < n → (l.filter fun b => key b = n) = [] := fun n hn =>
      List.filter_eq_nil_iff.mpr fun b hb => by
        have := hle b hb
        simp only [decide_eq_true_eq]
        omega
    have hsplit : List.range (key a + k + 1) =
        List.range (key a) ++ key a :: (List.range k).map fun j => key a + 1 + j := by
      rw [show key a + k + 1 = key a + (k + 1) by omega, List.range_add, List.range_succ_eq_map,
        List.map_cons, List.map_map]
      refine congrArg _ (congrArg₂ _ rfl (List.map_congr_left fun j _ => ?_))
      simp only [Function.comp_apply]
      omega
    have htail : ∀ l' : List α, (∀ n, key a < n → (l'.filter fun b => key b = n) = []) →
        ((List.range k).map fun j => key a + 1 + j).flatMap
          (fun n => l'.filter fun b => key b = n) = [] := fun l' hl' =>
      List.flatMap_eq_nil_iff.mpr fun n hn => by
        obtain ⟨j, -, rfl⟩ := List.mem_map.mp hn
        exact hl' _ (by omega)
    have hlast : ∀ n, ((l ++ [a]).filter fun b => key b = n) =
        (l.filter fun b => key b = n) ++ if key a = n then [a] else [] := fun n => by
      rw [List.filter_append, List.filter_singleton]
      by_cases hn : key a = n <;> simp [hn]
    have hfirst : ∀ n ∈ List.range (key a), ((l ++ [a]).filter fun b => key b = n) =
        l.filter fun b => key b = n := fun n hn => by
      have := List.mem_range.mp hn
      rw [hlast, if_neg (by omega), List.append_nil]
    rw [hsplit, List.flatMap_append, List.flatMap_cons, htail l hempty, List.append_nil] at ih
    rw [hsplit, List.flatMap_append, List.flatMap_cons, htail, List.append_nil,
      List.flatMap_congr hfirst, hlast, if_pos rfl, ← List.append_assoc, ← ih]
    intro n hn
    rw [hlast, hempty n hn, if_neg hn.ne, List.append_nil]

end Keys

/-! ## Traces -/

variable [DecidableEq ρ] [DecidableEq τ]

/-- `M.Traced m₀ tr c`: the machine has come from memory `m₀` to `c` by executing `tr`. -/
inductive Machine.Traced (M : Machine ρ τ ι μ ℓ) (m₀ : μ) :
    List (ℕ × (ρ × τ) × ι) → Config ρ τ ι μ ℓ → Prop
  | init : Traced M m₀ [] (M.init m₀)
  | fire {tr : List (ℕ × (ρ × τ) × ι)} {c : Config ρ τ ι μ ℓ} {r : ρ} {t : τ} {i : ι} {l : List ι}
      (h : Traced M m₀ tr c) (hrest : c.rest r t = i :: l) (henabled : M.enabled c r t i) :
      Traced M m₀ (tr ++ [(c.epoch r, (r, t), i)]) (M.fire c r t i l)
  | launch {tr : List (ℕ × (ρ × τ) × ι)} {c : Config ρ τ ι μ ℓ} {r : ρ} (h : Traced M m₀ tr c)
      (hmore : c.epoch r < M.epochs) (hidle : ∀ t, c.rest r t = []) :
      Traced M m₀ tr (M.launch c r)

/-- What a trace contains of epoch `n`. -/
def phaseOf (n : ℕ) (tr : List (ℕ × (ρ × τ) × ι)) : List ((ρ × τ) × ι) :=
  (tr.filter fun e => e.1 = n).map Prod.snd

/-- What thread `t` of agent `r` has yet to execute in epoch `n`. -/
def Machine.todo (M : Machine ρ τ ι μ ℓ) (c : Config ρ τ ι μ ℓ) (n : ℕ) (r : ρ) (t : τ) : List ι :=
  if n < c.epoch r then [] else if n = c.epoch r then c.rest r t else M.prog n r t

variable {M : Machine ρ τ ι μ ℓ} {m₀ : μ} {c : Config ρ τ ι μ ℓ} {tr : List (ℕ × (ρ × τ) × ι)}
  {stage : ι → ℕ} {P : ι → Prop} {n : ℕ} {r : ρ} {t : τ} {i : ι}

section Todo

omit [DecidableEq ρ] [DecidableEq τ]

/-- Nothing is left of an epoch that a rank is through with. -/
lemma todo_of_lt (h : n < c.epoch r) : M.todo c n r t = [] := if_pos h

/-- In its own epoch a thread has the rest of its program left. -/
lemma todo_of_eq (h : n = c.epoch r) : M.todo c n r t = c.rest r t :=
  (if_neg h.not_lt).trans (if_pos h)

/-- All is left of an epoch that a rank has not begun. -/
lemma todo_of_gt (h : c.epoch r < n) : M.todo c n r t = M.prog n r t :=
  (if_neg h.not_gt).trans (if_neg h.ne')

end Todo

/-- Every reachable configuration has a trace. -/
lemma Machine.Reachable.exists_traced (h : M.Reachable m₀ c) : ∃ tr, M.Traced m₀ tr c := by
  induction h with
  | init => exact ⟨[], .init⟩
  | step _ hstep ih =>
    obtain ⟨tr, htr⟩ := ih
    cases hstep with
    | fire hrest henabled => exact ⟨_, htr.fire hrest henabled⟩
    | launch hmore hidle => exact ⟨_, htr.launch hmore hidle⟩

namespace Machine.Traced

/-- A traced configuration is reachable. -/
lemma reachable (h : M.Traced m₀ tr c) : M.Reachable m₀ c := by
  induction h with
  | init => exact .init
  | fire _ hrest henabled ih => exact ih.step (.fire hrest henabled)
  | launch _ hmore hidle ih => exact ih.step (.launch hmore hidle)

omit [DecidableEq ρ] [DecidableEq τ] in
/-- A further entry belongs to its own epoch only. -/
lemma phaseOf_append_singleton (n : ℕ) (tr : List (ℕ × (ρ × τ) × ι)) (e : ℕ × (ρ × τ) × ι) :
    phaseOf n (tr ++ [e]) = phaseOf n tr ++ if e.1 = n then [e.2] else [] := by
  unfold phaseOf
  rw [List.filter_append, List.map_append, List.filter_singleton]
  by_cases he : e.1 = n <;> simp [he]

/-- What a thread has executed in an epoch and what it has yet to execute make up its program. -/
lemma append_todo (hM : M.Staged stage) (h : M.Traced m₀ tr c) (n : ℕ) (r : ρ) (t : τ) :
    ((phaseOf n tr).filter fun p => p.1 = (r, t)).map Prod.snd ++ M.todo c n r t =
      M.prog n r t := by
  induction h with
  | init =>
    rcases Nat.eq_zero_or_pos n with rfl | hn
    · exact (hM.prog_zero r t).symm
    · exact todo_of_gt (show (M.init m₀).epoch r < n from hn)
  | @fire tr c r' t' i l _ hrest _ ih =>
    rw [← ih, phaseOf_append_singleton, List.filter_append, List.map_append, List.append_assoc]
    congr 1
    by_cases hthread : r = r' ∧ t = t'
    · obtain ⟨rfl, rfl⟩ := hthread
      rcases Nat.lt_trichotomy n (c.epoch r) with hlt | heq | hgt
      · rw [todo_of_lt hlt, todo_of_lt (c := M.fire c r t i l) hlt]
        simp [hlt.ne']
      · rw [todo_of_eq heq, todo_of_eq (c := M.fire c r t i l) heq, fire_rest_self, hrest]
        simp [heq]
      · rw [todo_of_gt hgt, todo_of_gt (c := M.fire c r t i l) hgt]
        simp [hgt.ne]
    · have hne : ¬ (r', t') = (r, t) := fun heq => hthread (by simpa [eq_comm] using heq)
      unfold Machine.todo
      rw [fire_epoch, fire_rest_of_ne c r' t' i l hthread]
      by_cases hn : c.epoch r' = n <;> simp [hn, hne]
  | @launch tr c r' _ _ hidle ih =>
    rw [← ih]
    congr 1
    by_cases hr : r = r'
    · subst hr
      have hepoch : (M.launch c r).epoch r = c.epoch r + 1 := launch_epoch_self c r
      rcases Nat.lt_trichotomy n (c.epoch r) with hlt | heq | hgt
      · rw [todo_of_lt hlt, todo_of_lt (by omega)]
      · rw [todo_of_eq heq, hidle, todo_of_lt (by omega)]
      · rw [todo_of_gt hgt]
        rcases Nat.lt_or_eq_of_le hgt with hlater | heq
        · exact todo_of_gt (by omega)
        · rw [todo_of_eq (by omega), launch_rest_self]
          exact congrArg (M.prog · r t) heq
    · unfold Machine.todo
      rw [launch_epoch_of_ne c r' hr, launch_rest_of_ne c r' hr]

/-- Once all agents are through, the part of every epoch interleaves the programs of the epoch. -/
theorem interleaves (hM : M.Staged stage) (h : M.Traced m₀ tr c)
    (hfin : ∀ r, ¬ M.Unfinished c r) (hn : n ≤ M.epochs) :
    Interleaves (fun p : ρ × τ => M.prog n p.1 p.2) (phaseOf n tr) := by
  rintro ⟨r, t⟩
  obtain ⟨hepoch, hidle⟩ := not_or.mp (hfin r)
  have hidle : c.rest r t = [] := not_not.mp fun hne => hidle ⟨t, hne⟩
  have hnone : M.todo c n r t = [] := by
    rcases Nat.lt_or_eq_of_le (hn.trans (Nat.not_lt.mp hepoch)) with hlt | heq
    · exact todo_of_lt hlt
    · rw [todo_of_eq heq, hidle]
  have hprog := h.append_todo hM n r t
  rwa [hnone, List.append_nil] at hprog

/-! ## Machines that keep their epochs apart -/

/-- A trace has no entry of a later epoch than the last one. -/
lemma epoch_le (h : M.Traced m₀ tr c) {e : ℕ × (ρ × τ) × ι} (he : e ∈ tr) : e.1 ≤ M.epochs := by
  induction h with
  | init => cases he
  | @fire tr c r t i l h hrest henabled ih =>
    rcases List.mem_append.mp he with he | he
    · exact ih he
    · rw [List.mem_singleton.mp he]
      exact h.reachable.epoch_le r
  | launch _ _ _ ih => exact ih he

end Machine.Traced

/-- Whoever is about to execute an instruction of the kind `P` has all instructions of this kind of
all earlier epochs behind it, those of the other agents included. -/
def Machine.Separates (M : Machine ρ τ ι μ ℓ) (m₀ : μ) (P : ι → Prop) : Prop :=
  ∀ c r t i, M.Reachable m₀ c → c.Head r t i → P i → ∀ n < c.epoch r, ∀ r' t' j, P j →
    j ∈ M.prog n r' t' → M.Ran c n r' t' j

namespace Machine.Traced

/-- What stands in a trace has the earlier epochs behind it. -/
lemma ran_of_mem (hsep : M.Separates m₀ P) (h : M.Traced m₀ tr c)
    {e : ℕ × (ρ × τ) × ι} (he : e ∈ tr) (hP : P e.2.2) (hn : n < e.1) {r' : ρ} {t' : τ} {j : ι}
    (hj : P j) (hmem : j ∈ M.prog n r' t') : M.Ran c n r' t' j := by
  induction h with
  | init => cases he
  | @fire tr c r t i l h hrest henabled ih =>
    have hstep : M.Step c (M.fire c r t i l) := .fire hrest henabled
    rcases List.mem_append.mp he with he | he
    · exact (ih he).step hstep
    · obtain rfl := List.mem_singleton.mp he
      exact (hsep c r t i h.reachable ⟨l, hrest⟩ hP n hn r' t' j hj hmem).step hstep
  | launch _ hmore hidle ih => exact (ih he).step (.launch hmore hidle)

variable [DecidablePred P]

/-- Instructions of a kind whose epochs are kept apart are executed in the order of their epochs. -/
theorem pairwise_epoch (hsep : M.Separates m₀ P) (h : M.Traced m₀ tr c) :
    (tr.filter fun e => P e.2.2).Pairwise fun e e' => e.1 ≤ e'.1 := by
  induction h with
  | init => exact .nil
  | @fire tr c r t i l h hrest henabled ih =>
    rw [List.filter_append]
    refine List.pairwise_append.mpr ⟨ih, (List.pairwise_singleton _ _).filter _,
      fun e he e' he' => ?_⟩
    obtain ⟨he, hP⟩ := List.mem_filter.mp he
    obtain ⟨he', hP'⟩ := List.mem_filter.mp he'
    obtain rfl := List.mem_singleton.mp he'
    -- an instruction of a later epoch would have `i` behind it, and `i` is still ahead
    by_contra hlt
    have hran := h.ran_of_mem hsep he (of_decide_eq_true hP) (Nat.not_le.mp hlt)
      (of_decide_eq_true hP') (Config.Head.mem_prog h.reachable ⟨l, hrest⟩)
    exact Config.Head.not_ran ⟨l, hrest⟩ hran
  | launch _ _ _ ih => exact ih

/-- The instructions of a kind whose epochs are kept apart, epoch after epoch. -/
theorem eq_flatMap (hsep : M.Separates m₀ P) (h : M.Traced m₀ tr c) :
    (tr.filter fun e => P e.2.2) = (List.range (M.epochs + 1)).flatMap fun n =>
      (phaseOf n (tr.filter fun e => P e.2.2)).map (n, ·) := by
  refine (eq_flatMap_of_pairwise (N := M.epochs + 1) (h.pairwise_epoch hsep) fun e he =>
    Nat.lt_succ_of_le (h.epoch_le (List.mem_of_mem_filter he))).trans
      (List.flatMap_congr fun n _ => ?_)
  unfold phaseOf
  rw [List.map_map]
  refine (List.map_id _).symm.trans (List.map_congr_left fun e he => ?_)
  have hn : e.1 = n := of_decide_eq_true (List.mem_filter.mp he).2
  exact Prod.ext hn rfl

end Machine.Traced

end Epochs
