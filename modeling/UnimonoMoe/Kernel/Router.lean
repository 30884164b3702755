import Mathlib.Algebra.Order.Field.Basic
import Mathlib.Data.Finset.Card
import UnimonoMoe.Kernel.Sort
import UnimonoMoe.Lib.Butterfly

/-!
# The router

Phase 0: one warp per token selects `TOP_K` of the experts.  Lane `lane` holds the experts
`lane + 32 * j`; a round is a masked argmax inside every lane followed by a butterfly reduction
over the lanes, after which the lane that owns the winner retires it.

The arithmetic is a parameter, `FloatOps`, because only the comparisons matter for which experts
are selected.  `FloatOps.Ordered` says that they are those of a linear order.  Under it all lanes
agree on every winner (`winner_agree`) and round `k` yields the best expert that is still available
(`winner_spec`); so a row with at least `TOP_K` selectable experts fills every slot
(`winner_lt_of_card`).
-/

namespace UnimonoMoe

open Butterfly

/-- The arithmetic of the router, as the source spells it. -/
structure FloatOps (F : Type*) where
  /-- `a > b` -/
  gt : F → F → Bool
  /-- `a == b` -/
  eq : F → F → Bool
  /-- `fmaxf` -/
  max : F → F → F
  add : F → F → F
  sub : F → F → F
  mul : F → F → F
  div : F → F → F
  neg : F → F
  /-- `expf` -/
  exp : F → F
  zero : F
  one : F
  /-- `-__FLT_MAX__` -/
  lowest : F
  /-- `1e-30f` -/
  tiny : F

/-- The comparisons are those of a linear order. -/
structure FloatOps.Ordered {F : Type*} [LinearOrder F] (ops : FloatOps F) : Prop where
  gt_iff : ∀ a b, ops.gt a b = true ↔ b < a
  eq_iff : ∀ a b, ops.eq a b = true ↔ a = b

/-- Among the values that satisfy `V`, with `-FLT_MAX` one of them, the comparisons are those of
their ranks.  Whatever ranks above such a value is one. -/
structure FloatOps.Ranked {F L : Type*} [LinearOrder L] (ops : FloatOps F) (rank : F → L)
    (V : F → Prop) : Prop where
  gt_iff : ∀ a b, V b → (ops.gt a b = true ↔ rank b < rank a)
  eq_iff : ∀ a b, V a → V b → (ops.eq a b = true ↔ rank a = rank b)
  lowest : V ops.lowest
  above : ∀ a b, V b → rank b < rank a → V a

/-- Ordered operations rank all values by themselves. -/
lemma FloatOps.Ordered.ranked {F : Type*} [LinearOrder F] {ops : FloatOps F} (h : ops.Ordered) :
    ops.Ranked id fun _ => True :=
  ⟨fun a b _ => h.gt_iff a b, fun a b _ _ => h.eq_iff a b, trivial, fun _ _ _ _ => trivial⟩

/-- Exact arithmetic in an ordered field. -/
def FloatOps.exact {K : Type*} [Field K] [LinearOrder K] (exp : K → K) (lowest tiny : K) :
    FloatOps K where
  gt a b := decide (b < a)
  eq a b := decide (a = b)
  max a b := Max.max a b
  add := (· + ·)
  sub := (· - ·)
  mul := (· * ·)
  div := (· / ·)
  neg a := -a
  exp := exp
  zero := 0
  one := 1
  lowest := lowest
  tiny := tiny

/-- The operations of an ordered field are ordered. -/
lemma FloatOps.exact_ordered {K : Type*} [Field K] [LinearOrder K] (exp : K → K)
    (lowest tiny : K) : (FloatOps.exact exp lowest tiny).Ordered :=
  ⟨fun _ _ => decide_eq_true_iff, fun _ _ => decide_eq_true_iff⟩

/-! ## The selection scores -/

/-- `LOGITS_PER_LANE`. -/
def Build.logitsPerLane (B : Build) : ℕ := B.numExperts / 32

section Scores

variable {F : Type*} (B : Build) (ops : FloatOps F) (bias : Option (ℕ → F)) (row : ℕ → F)

/-- `v[j]` of a lane: the logit of expert `lane + 32 * j`. -/
def laneLogit (lane j : ℕ) : F := row (lane + 32 * j)

/-- The row maximum `m`, as lane `lane` has it after the reduction. -/
def rowMax (lane : ℕ) : F :=
  butterfly ops.max 5 (fun lane =>
    (List.range' 1 (B.logitsPerLane - 1)).foldl (fun m j => ops.max m (laneLogit row lane j))
      (laneLogit row lane 0)) lane

/-- The softmax denominator `s`, as lane `lane` has it after the reduction. -/
def rowSum (lane : ℕ) : F :=
  butterfly ops.add 5 (fun lane =>
    (List.range B.logitsPerLane).foldl
      (fun s j => ops.add s (ops.exp (ops.sub (laneLogit row lane j) (rowMax B ops row lane))))
      ops.zero) lane

/-- `unb[j]` of a lane: the logit under softmax, the sigmoid score otherwise. -/
def unbiased (lane j : ℕ) : F :=
  if B.routerMode = 0 then laneLogit row lane j
  else ops.div ops.one (ops.add ops.one (ops.exp (ops.neg (laneLogit row lane j))))

/-- `sel[j]` of a lane before the groups are masked. -/
def biased (lane j : ℕ) : F :=
  if B.routerMode = 0 then laneLogit row lane j
  else ops.add (unbiased B ops row lane j) (bias.elim ops.zero fun b => b (lane + 32 * j))

/-- The masked argmax of a lane over its registers: the value, starting from `-FLT_MAX`, and the
index, absent when no register beats `-FLT_MAX`. -/
def maskedArgmax (used : ℕ → Bool) (score : ℕ → F) (n : ℕ) : F × Option ℕ :=
  (List.range n).foldl
    (fun acc j => if !used j && ops.gt (score j) acc.1 then (score j, some j) else acc)
    (ops.lowest, none)

/-- The top score of group `j` with its lane, `(b1, i1)`. -/
def groupTop (j lane : ℕ) : F × ℕ :=
  butterfly (fun a o => if ops.gt o.1 a.1 || (ops.eq o.1 a.1 && decide (o.2 < a.2)) then o else a)
    5 (fun lane => (biased B ops bias row lane j, lane)) lane

/-- The second score of group `j`, `b2`. -/
def groupSecond (j lane : ℕ) : F :=
  butterfly ops.max 5 (fun lane =>
    if lane = (groupTop B ops bias row j lane).2 then ops.lowest
    else biased B ops bias row lane j) lane

/-- `gs[j]` of a lane. -/
def groupScore (lane j : ℕ) : F :=
  ops.add (groupTop B ops bias row j lane).1 (groupSecond B ops bias row j lane)

/-- `gkeep` of a lane after `r` rounds, as the set of its bits. -/
def groupKeep (lane : ℕ) : ℕ → ℕ → Bool
  | 0, _ => false
  | r + 1, j =>
    groupKeep lane r j ||
      decide ((maskedArgmax ops (groupKeep lane r) (groupScore B ops bias row lane)
        B.logitsPerLane).2 = some j)

/-- `sel[j]` of a lane in the selection loop. -/
def selScore (lane j : ℕ) : F :=
  if B.routerMode = 2 ∧ groupKeep B ops bias row lane B.topkGroup j = false then ops.lowest
  else biased B ops bias row lane j

end Scores

/-! ## The selection -/

/-- `INT32_MAX`, the index of a lane that has nothing left. -/
def int32Max : ℕ := 2147483647

/-- What a lane carries through the reduction of a round.  Under softmax nothing reads `bunb`. -/
@[ext]
structure Candidate (F : Type*) where
  best : F
  bidx : ℕ
  bunb : F

section Selection

variable {F : Type*} (B : Build) (ops : FloatOps F) (bias : Option (ℕ → F)) (row : ℕ → F)

/-- The candidate of a lane before the reduction. -/
def laneCandidate (used : ℕ → ℕ → Bool) (lane : ℕ) : Candidate F :=
  let r := maskedArgmax ops (used lane) (selScore B ops bias row lane) B.logitsPerLane
  ⟨r.1, r.2.elim int32Max fun j => lane + 32 * j, r.2.elim ops.zero (unbiased B ops row lane)⟩

/-- One lane's step of the reduction: own candidate `a`, the other lane's `o`. -/
def Candidate.merge (a o : Candidate F) : Candidate F :=
  if ops.gt o.best a.best || (ops.eq o.best a.best && decide (o.bidx < a.bidx)) then o else a

/-- `used` of every lane, as the set of its bits, before round `k`, together with the round. -/
def usedBefore : ℕ → ℕ → ℕ → Bool
  | 0, _, _ => false
  | k + 1, lane, j =>
    let bidx := (butterfly (Candidate.merge ops) 5
      (laneCandidate B ops bias row (usedBefore k)) lane).bidx
    usedBefore k lane j || (decide (lane = bidx % 32) && decide (j = bidx / 32))

/-- The winner of round `k`, as lane `lane` has it. -/
def winner (k lane : ℕ) : Candidate F :=
  butterfly (Candidate.merge ops) 5
    (laneCandidate B ops bias row (usedBefore B ops bias row k)) lane

/-- `wk`, the weight of slot `k` before renormalization, as lane 0 computes it. -/
def rawWeight (k : ℕ) : F :=
  if B.routerMode = 0 then
    ops.div (ops.exp (ops.sub (winner B ops bias row k 0).best (rowMax B ops row 0)))
      (rowSum B ops row 0)
  else (winner B ops bias row k 0).bunb

/-- `wsum`. -/
def weightSum : F :=
  (List.range B.topK).foldl (fun s k => ops.add s (rawWeight B ops bias row k)) ops.zero

/-- The weight of slot `k` after renormalization. -/
def slotWeight (k : ℕ) : F :=
  ops.mul (rawWeight B ops bias row k)
    (ops.div ops.one (ops.max (weightSum B ops bias row) ops.tiny))

end Selection

/-- The remap of a global expert id to what the slot stores. -/
def remap (B : Build) (expertMap : Option (ℕ → ℤ)) (bidx : ℕ) : ℤ :=
  if B.epBuild then
    match expertMap with
    | some m => if bidx < B.numExperts then m bidx else -1
    | none => -1
  else bidx

/-- `topk_ids` and `topk_weights`. -/
structure RouterOut (F : Type*) where
  ids : ℕ → ℤ
  weights : ℕ → F

/-- Phase 0 on the logits of all tokens. -/
def router {F : Type*} (B : Build) (ops : FloatOps F) (bias : Option (ℕ → F))
    (expertMap : Option (ℕ → ℤ)) (logits : ℕ → ℕ → F) : RouterOut F where
  ids i := remap B expertMap (winner B ops bias (logits (i / B.topK)) (i % B.topK) 0).bidx
  weights i := slotWeight B ops bias (logits (i / B.topK)) (i % B.topK)

/-! ## The order of the candidates -/

section Candidates

variable {F : Type*} [LinearOrder F]

/-- Candidate `o` is at least as good as `a`. -/
def Candidate.Le (a o : Candidate F) : Prop :=
  a.best < o.best ∨ (a.best = o.best ∧ o.bidx ≤ a.bidx)

/-- A candidate is as good as itself. -/
lemma Candidate.Le.refl (a : Candidate F) : a.Le a := Or.inr ⟨rfl, le_rfl⟩

/-- Being as good is transitive. -/
lemma Candidate.Le.trans (a b c : Candidate F) (hab : a.Le b) (hbc : b.Le c) : a.Le c := by
  rcases hab with h | ⟨h, h'⟩ <;> rcases hbc with k | ⟨k, k'⟩
  · exact Or.inl (h.trans k)
  · exact Or.inl (k ▸ h)
  · exact Or.inl (h ▸ k)
  · exact Or.inr ⟨h.trans k, k'.trans h'⟩

/-- Two equally good candidates are for one expert. -/
lemma Candidate.Le.antisymm {a o : Candidate F} (h : a.Le o) (h' : o.Le a) :
    a.best = o.best ∧ a.bidx = o.bidx := by
  rcases h with h | ⟨h, k⟩ <;> rcases h' with h' | ⟨h', k'⟩
  · exact absurd h' h.asymm
  · exact absurd h (h' ▸ lt_irrefl _)
  · exact absurd h' (h ▸ lt_irrefl _)
  · exact ⟨h, le_antisymm k' k⟩

end Candidates

/-! ## What is selected, by rank -/

section Ranked

variable {F L : Type*} [LinearOrder L] {B : Build} {ops : FloatOps F} {bias : Option (ℕ → F)}
  {row : ℕ → F} {rank : F → L} {V : F → Prop}

/-- One more register. -/
lemma maskedArgmax_succ (used : ℕ → Bool) (score : ℕ → F) (n : ℕ) :
    maskedArgmax ops used score (n + 1) =
      if !used n && ops.gt (score n) (maskedArgmax ops used score n).1 then (score n, some n)
      else maskedArgmax ops used score n := by
  rw [maskedArgmax, List.range_succ, List.foldl_append]
  rfl

/-- What the masked argmax has found so far is a value that comparisons rank. -/
lemma maskedArgmax_value (hops : ops.Ranked rank V) (used : ℕ → Bool) (score : ℕ → F) (n : ℕ) :
    V (maskedArgmax ops used score n).1 := by
  induction n with
  | zero => exact hops.lowest
  | succ n ih =>
    rw [maskedArgmax_succ]
    split_ifs with htake
    · exact hops.above _ _ ih ((hops.gt_iff _ _ ih).mp (Bool.and_eq_true_iff.mp htake).2)
    · exact ih

/-- The masked argmax finds nothing when nothing beats `-FLT_MAX`, and otherwise the lowest index
among the best. -/
lemma maskedArgmax_ranked (hops : ops.Ranked rank V) (used : ℕ → Bool) (score : ℕ → F) (n : ℕ) :
    match (maskedArgmax ops used score n).2 with
    | none => (maskedArgmax ops used score n).1 = ops.lowest ∧
        ∀ j < n, used j = false → rank (score j) ≤ rank ops.lowest
    | some i => (maskedArgmax ops used score n).1 = score i ∧ i < n ∧ used i = false ∧
        rank ops.lowest < rank (score i) ∧ ∀ j < n, used j = false →
          rank (score j) < rank (score i) ∨ (rank (score j) = rank (score i) ∧ i ≤ j) := by
  induction n with
  | zero => exact ⟨rfl, fun j hj => absurd hj (Nat.not_lt_zero j)⟩
  | succ n ih =>
    have hV := maskedArgmax_value hops used score n
    rw [maskedArgmax_succ]
    generalize maskedArgmax ops used score n = acc at ih hV
    obtain ⟨best, bj⟩ := acc
    by_cases htake : (!used n && ops.gt (score n) best) = true
    · -- register `n` is better than everything before it
      rw [if_pos htake]
      obtain ⟨hused, hgt⟩ := Bool.and_eq_true_iff.mp htake
      have hbest : rank best < rank (score n) := (hops.gt_iff _ _ hV).mp hgt
      have hfree : used n = false := by simpa using hused
      cases bj with
      | none =>
        obtain ⟨rfl, hall⟩ := ih
        refine ⟨rfl, Nat.lt_succ_self n, hfree, hbest, fun j hj hjfree => ?_⟩
        rcases Nat.lt_succ_iff_lt_or_eq.mp hj with hlt | rfl
        · exact Or.inl ((hall j hlt hjfree).trans_lt hbest)
        · exact Or.inr ⟨rfl, le_rfl⟩
      | some i =>
        obtain ⟨rfl, _, _, hlow, hall⟩ := ih
        refine ⟨rfl, Nat.lt_succ_self n, hfree, hlow.trans hbest, fun j hj hjfree => ?_⟩
        rcases Nat.lt_succ_iff_lt_or_eq.mp hj with hlt | rfl
        · rcases hall j hlt hjfree with h | ⟨h, _⟩
          · exact Or.inl (h.trans hbest)
          · exact Or.inl (h ▸ hbest)
        · exact Or.inr ⟨rfl, le_rfl⟩
    · rw [if_neg htake]
      have hkeep : used n = false → rank (score n) ≤ rank best := by
        intro hfree
        by_contra hlt
        exact htake (by simp [hfree, (hops.gt_iff _ _ hV).mpr (not_le.mp hlt)])
      cases bj with
      | none =>
        obtain ⟨rfl, hall⟩ := ih
        refine ⟨rfl, fun j hj hjfree => ?_⟩
        rcases Nat.lt_succ_iff_lt_or_eq.mp hj with hlt | rfl
        · exact hall j hlt hjfree
        · exact hkeep hjfree
      | some i =>
        obtain ⟨rfl, hi, hifree, hlow, hall⟩ := ih
        refine ⟨rfl, hi.trans (Nat.lt_succ_self n), hifree, hlow, fun j hj hjfree => ?_⟩
        rcases Nat.lt_succ_iff_lt_or_eq.mp hj with hlt | rfl
        · exact hall j hlt hjfree
        · rcases (hkeep hjfree).lt_or_eq with h | h
          · exact Or.inl h
          · exact Or.inr ⟨h, hi.le⟩

/-- The candidate with the ranks of its values. -/
def Candidate.ranked (rank : F → L) (c : Candidate F) : Candidate L :=
  ⟨rank c.best, c.bidx, rank c.bunb⟩

/-- The merge picks one of the candidates. -/
lemma Candidate.merge_eq_or (a o : Candidate F) :
    Candidate.merge ops a o = a ∨ Candidate.merge ops a o = o := by
  unfold Candidate.merge
  split_ifs
  · exact Or.inr rfl
  · exact Or.inl rfl

/-- The test of the merge compares the ranks, then the indices. -/
lemma Candidate.merge_test_ranked (hops : ops.Ranked rank V) {a o : Candidate F} (ha : V a.best)
    (ho : V o.best) :
    (ops.gt o.best a.best || (ops.eq o.best a.best && decide (o.bidx < a.bidx))) = true ↔
      rank a.best < rank o.best ∨ (rank o.best = rank a.best ∧ o.bidx < a.bidx) := by
  rw [Bool.or_eq_true, Bool.and_eq_true, hops.gt_iff _ _ ha, hops.eq_iff _ _ ho ha,
    decide_eq_true_iff]

/-- The merge is as good as the own candidate. -/
lemma Candidate.le_merge_left_ranked (hops : ops.Ranked rank V) {a o : Candidate F}
    (ha : V a.best) (ho : V o.best) :
    (a.ranked rank).Le ((Candidate.merge ops a o).ranked rank) := by
  unfold Candidate.merge
  split_ifs with h
  · rcases (Candidate.merge_test_ranked hops ha ho).mp h with h | ⟨h, h'⟩
    · exact Or.inl h
    · exact Or.inr ⟨h.symm, h'.le⟩
  · exact Candidate.Le.refl _

/-- And as good as that of the other lane. -/
lemma Candidate.le_merge_right_ranked (hops : ops.Ranked rank V) {a o : Candidate F}
    (ha : V a.best) (ho : V o.best) :
    (o.ranked rank).Le ((Candidate.merge ops a o).ranked rank) := by
  unfold Candidate.merge
  split_ifs with h
  · exact Candidate.Le.refl _
  · rw [Candidate.merge_test_ranked hops ha ho, not_or, not_and, not_lt, not_lt] at h
    obtain ⟨hle, hidx⟩ := h
    rcases hle.lt_or_eq with hlt | heq
    · exact Or.inl hlt
    · exact Or.inr ⟨heq, hidx heq⟩

/-- The candidates that the reduction compares. -/
def Ranking (V : F → Prop) : Type _ := { c : Candidate F // V c.best }

/-- `Candidate.merge` on them. -/
def Ranking.merge (ops : FloatOps F) (a o : Ranking V) : Ranking V :=
  ⟨Candidate.merge ops a.1 o.1, by
    unfold Candidate.merge
    split_ifs
    · exact o.2
    · exact a.2⟩

/-- The order of the candidates by rank. -/
def Ranking.Le (rank : F → L) (a o : Ranking V) : Prop := (a.1.ranked rank).Le (o.1.ranked rank)

/-- The candidates of the lanes before the reduction. -/
def laneRanking (hops : ops.Ranked rank V) (B : Build) (bias : Option (ℕ → F)) (row : ℕ → F)
    (used : ℕ → ℕ → Bool) (lane : ℕ) : Ranking V :=
  ⟨laneCandidate B ops bias row used lane, maskedArgmax_value hops _ _ _⟩

/-- What every lane has after the reduction is at least as good as every candidate. -/
lemma laneCandidate_le_winner (hops : ops.Ranked rank V) (k : ℕ) {lane i : ℕ} (hlane : lane < 32)
    (hi : i < 32) : ((laneCandidate B ops bias row (usedBefore B ops bias row k) i).ranked rank).Le
      ((winner B ops bias row k lane).ranked rank) := by
  have hmap : ∀ a o : Ranking V, (Ranking.merge ops a o).1 = Candidate.merge ops a.1 o.1 :=
    fun _ _ => rfl
  have htrans : ∀ a b c : Ranking V, Ranking.Le rank a b → Ranking.Le rank b c →
      Ranking.Le rank a c := fun _ _ _ => Candidate.Le.trans _ _ _
  have hleft : ∀ a o : Ranking V, Ranking.Le rank a (Ranking.merge ops a o) := fun a o =>
    Candidate.le_merge_left_ranked hops a.2 o.2
  have hright : ∀ a o : Ranking V, Ranking.Le rank o (Ranking.merge ops a o) := fun a o =>
    Candidate.le_merge_right_ranked hops a.2 o.2
  have hbest := le_butterfly (n := 5) (x := laneRanking hops B bias row
    (usedBefore B ops bias row k)) htrans hleft hright (fun _ => Candidate.Le.refl _) hlane hi
  unfold Ranking.Le at hbest
  rw [butterfly_map hmap] at hbest
  exact hbest

/-- All lanes agree on the winner of a round. -/
theorem winner_agree_ranked (hops : ops.Ranked rank V) (k : ℕ) {lane : ℕ} (hlane : lane < 32) :
    (winner B ops bias row k lane).bidx = (winner B ops bias row k 0).bidx := by
  have hle : ∀ {l l' : ℕ}, l < 32 → l' < 32 →
      ((winner B ops bias row k l).ranked rank).Le ((winner B ops bias row k l').ranked rank) := by
    intro l l' hl hl'
    obtain ⟨i, hi, heq⟩ := butterfly_mem (n := 5)
      (x := laneCandidate B ops bias row (usedBefore B ops bias row k))
      Candidate.merge_eq_or hl
    have hbest : ((laneCandidate B ops bias row (usedBefore B ops bias row k) i).ranked rank).Le
        ((winner B ops bias row k l').ranked rank) := laneCandidate_le_winner hops k hl' hi
    rw [← heq] at hbest
    exact hbest
  exact (Candidate.Le.antisymm (hle hlane (by norm_num)) (hle (by norm_num) hlane)).2

/-- The register of an expert is retired by the round that selects it. -/
lemma usedBefore_eq_false_ranked (hops : ops.Ranked rank V) (k : ℕ) {e : ℕ} :
    usedBefore B ops bias row k (e % 32) (e / 32) = false ↔
      ∀ i < k, (winner B ops bias row i 0).bidx ≠ e := by
  induction k with
  | zero => exact ⟨fun _ i hi => absurd hi (Nat.not_lt_zero i), fun _ => rfl⟩
  | succ k ih =>
    have hagree : (winner B ops bias row k (e % 32)).bidx = (winner B ops bias row k 0).bidx :=
      winner_agree_ranked hops k (Nat.mod_lt e (by norm_num))
    have hsplit : (e % 32 = (winner B ops bias row k 0).bidx % 32 ∧
        e / 32 = (winner B ops bias row k 0).bidx / 32) ↔
          (winner B ops bias row k 0).bidx = e := by omega
    have hnext : usedBefore B ops bias row (k + 1) (e % 32) (e / 32) =
        (usedBefore B ops bias row k (e % 32) (e / 32) ||
          decide ((winner B ops bias row k 0).bidx = e)) := by
      rw [← decide_eq_decide.mpr hsplit, Bool.decide_and, ← hagree]
      rfl
    rw [hnext, Bool.or_eq_false_iff, ih, decide_eq_false_iff_not, Nat.forall_lt_succ_right]

/-- The score of expert `e` in the selection loop. -/
def score (B : Build) (ops : FloatOps F) (bias : Option (ℕ → F)) (row : ℕ → F) (e : ℕ) : F :=
  selScore B ops bias row (e % 32) (e / 32)

/-- Expert `e` can still be selected in round `k`, by rank. -/
def RankAvailable (rank : F → L) (B : Build) (ops : FloatOps F) (bias : Option (ℕ → F))
    (row : ℕ → F) (k e : ℕ) : Prop :=
  e < B.numExperts ∧ rank ops.lowest < rank (score B ops bias row e) ∧
    ∀ i < k, (winner B ops bias row i 0).bidx ≠ e

/-- What a lane proposes in round `k`. -/
lemma laneCandidate_ranked (hops : ops.Ranked rank V) (B : Build) (bias : Option (ℕ → F))
    (row : ℕ → F) (k : ℕ) {lane : ℕ} (hlane : lane < 32) :
    ((laneCandidate B ops bias row (usedBefore B ops bias row k) lane).bidx = int32Max ∧
      (laneCandidate B ops bias row (usedBefore B ops bias row k) lane).best = ops.lowest ∧
        ∀ e, e % 32 = lane → ¬ RankAvailable rank B ops bias row k e) ∨
    (∃ e, e % 32 = lane ∧ RankAvailable rank B ops bias row k e ∧
      laneCandidate B ops bias row (usedBefore B ops bias row k) lane =
        ⟨score B ops bias row e, e, unbiased B ops row (e % 32) (e / 32)⟩ ∧
      ∀ e', e' % 32 = lane → RankAvailable rank B ops bias row k e' →
        rank (score B ops bias row e') < rank (score B ops bias row e) ∨
          (rank (score B ops bias row e') = rank (score B ops bias row e) ∧ e ≤ e')) := by
  have hexperts : B.numExperts = 32 * B.logitsPerLane := by
    unfold Build.logitsPerLane
    rw [B.numExperts_eq]
  have hspec := maskedArgmax_ranked hops (usedBefore B ops bias row k lane)
    (selScore B ops bias row lane) B.logitsPerLane
  unfold laneCandidate
  generalize maskedArgmax ops (usedBefore B ops bias row k lane) (selScore B ops bias row lane)
    B.logitsPerLane = acc at hspec
  obtain ⟨best, bj⟩ := acc
  have havail : ∀ e, e % 32 = lane → (RankAvailable rank B ops bias row k e ↔
      e / 32 < B.logitsPerLane ∧ rank ops.lowest < rank (selScore B ops bias row lane (e / 32)) ∧
        usedBefore B ops bias row k lane (e / 32) = false) := by
    rintro e rfl
    unfold RankAvailable
    rw [usedBefore_eq_false_ranked hops, score, Nat.div_lt_iff_lt_mul (by norm_num), hexperts,
      Nat.mul_comm]
  cases bj with
  | none =>
    obtain ⟨rfl, hall⟩ := hspec
    refine Or.inl ⟨rfl, rfl, fun e he hav => ?_⟩
    obtain ⟨hj, hlow, hfree⟩ := (havail e he).mp hav
    exact absurd hlow (hall _ hj hfree).not_gt
  | some i =>
    obtain ⟨rfl, hi, hfree, hlow, hall⟩ := hspec
    have hmod : (lane + 32 * i) % 32 = lane := by omega
    have hdiv : (lane + 32 * i) / 32 = i := by omega
    refine Or.inr ⟨lane + 32 * i, hmod, ?_, ?_, fun e' he' hav => ?_⟩
    · rw [havail _ hmod, hdiv]
      exact ⟨hi, hlow, hfree⟩
    · simp only [score, hmod, hdiv, Option.elim_some]
    · obtain ⟨hj, _, hfree'⟩ := (havail e' he').mp hav
      simp only [score, hmod, hdiv, he']
      rcases hall _ hj hfree' with h | ⟨h, h'⟩
      · exact Or.inl h
      · exact Or.inr ⟨h, by omega⟩

/-- A winner is the candidate of some lane. -/
lemma exists_winner_eq (B : Build) (ops : FloatOps F) (bias : Option (ℕ → F)) (row : ℕ → F)
    (k : ℕ) : ∃ i < 32, winner B ops bias row k 0 =
      laneCandidate B ops bias row (usedBefore B ops bias row k) i :=
  butterfly_mem (n := 5) Candidate.merge_eq_or (by norm_num)

/-- A round in which some expert is available selects the best one, the lowest among equals. -/
theorem winner_ranked (hops : ops.Ranked rank V) {k e₀ : ℕ}
    (he₀ : RankAvailable rank B ops bias row k e₀) :
    ∃ e, RankAvailable rank B ops bias row k e ∧
      winner B ops bias row k 0 =
        ⟨score B ops bias row e, e, unbiased B ops row (e % 32) (e / 32)⟩ ∧
      ∀ e', RankAvailable rank B ops bias row k e' →
        rank (score B ops bias row e') < rank (score B ops bias row e) ∨
          (rank (score B ops bias row e') = rank (score B ops bias row e) ∧ e ≤ e') := by
  -- the candidate of an available expert's lane is at least as good as the expert
  have hlane : ∀ e', RankAvailable rank B ops bias row k e' →
      (⟨rank (score B ops bias row e'), e', rank ops.zero⟩ : Candidate L).Le
        ((winner B ops bias row k 0).ranked rank) := by
    intro e' hav
    have hlt : e' % 32 < 32 := Nat.mod_lt _ (by norm_num)
    refine Candidate.Le.trans _ _ _ ?_ (laneCandidate_le_winner hops k (by norm_num) hlt)
    rcases laneCandidate_ranked hops B bias row k hlt with
      ⟨_, _, hnone⟩ | ⟨e, _, _, heq, hall⟩
    · exact absurd hav (hnone e' rfl)
    · rw [heq]
      exact hall e' rfl hav
  obtain ⟨i, hi, hwinner⟩ := exists_winner_eq B ops bias row k
  rcases laneCandidate_ranked hops B bias row k hi with
    ⟨_, hlow, _⟩ | ⟨e, _, hav, hcand, _⟩
  · -- a lane with nothing left cannot win
    exfalso
    have hpos := he₀.2.1
    have hle := hlane e₀ he₀
    rw [hwinner] at hle
    rcases hle with h | ⟨h, _⟩
    · rw [Candidate.ranked, hlow] at h
      exact lt_asymm hpos h
    · rw [Candidate.ranked, hlow] at h
      exact absurd h hpos.ne'
  · rw [hcand] at hwinner
    refine ⟨e, hav, hwinner, fun e' hav' => ?_⟩
    have h := hlane e' hav'
    rw [hwinner] at h
    exact h

/-- A round in which nothing is available yields `INT32_MAX`. -/
theorem winner_eq_int32Max_ranked (hops : ops.Ranked rank V) {k : ℕ}
    (h : ∀ e, ¬ RankAvailable rank B ops bias row k e) :
    (winner B ops bias row k 0).bidx = int32Max := by
  obtain ⟨i, hi, hwinner⟩ := exists_winner_eq B ops bias row k
  rcases laneCandidate_ranked hops B bias row k hi with
    ⟨hidx, _, _⟩ | ⟨e, _, hav, _, _⟩
  · rw [hwinner, hidx]
  · exact absurd hav (h e)

/-- The experts whose score compares greater than `-FLT_MAX`. -/
def offered (B : Build) (ops : FloatOps F) (bias : Option (ℕ → F)) (row : ℕ → F) : Finset ℕ :=
  (Finset.range B.numExperts).filter fun e => ops.gt (score B ops bias row e) ops.lowest

/-- An expert is offered when its score ranks above the lowest value. -/
lemma mem_offered (hops : ops.Ranked rank V) {e : ℕ} : e ∈ offered B ops bias row ↔
    e < B.numExperts ∧ rank ops.lowest < rank (score B ops bias row e) := by
  unfold offered
  rw [Finset.mem_filter, Finset.mem_range, hops.gt_iff _ _ hops.lowest]

/-- No expert has the number that stands for none. -/
lemma numExperts_lt_int32Max : B.numExperts < int32Max := by
  rw [B.numExperts_eq]
  norm_num [int32Max]

/-- A winner in range is an expert that was available. -/
lemma rankAvailable_winner (hops : ops.Ranked rank V) {k : ℕ}
    (h : (winner B ops bias row k 0).bidx < B.numExperts) :
    RankAvailable rank B ops bias row k (winner B ops bias row k 0).bidx := by
  obtain ⟨i, hi, hwinner⟩ := exists_winner_eq B ops bias row k
  rcases laneCandidate_ranked hops B bias row k hi with ⟨hidx, _, _⟩ | ⟨e, _, hav, hcand, _⟩
  · rw [hwinner, hidx] at h
    exact absurd h numExperts_lt_int32Max.asymm
  · rw [hwinner, hcand]
    exact hav

/-- The first `n` rounds all select an expert exactly when at least `n` experts are offered. -/
theorem winners_lt_iff (hops : ops.Ranked rank V) (n : ℕ) :
    (∀ k < n, (winner B ops bias row k 0).bidx < B.numExperts) ↔
      n ≤ (offered B ops bias row).card := by
  constructor
  · intro hall
    -- the winners are distinct experts that are offered
    have hmaps : ∀ k ∈ Finset.range n,
        (winner B ops bias row k 0).bidx ∈ offered B ops bias row := by
      intro k hk
      obtain ⟨hlt, hlow, _⟩ := rankAvailable_winner hops (hall k (Finset.mem_range.mp hk))
      exact (mem_offered hops).mpr ⟨hlt, hlow⟩
    have hfresh : ∀ k < n, ∀ i < k,
        (winner B ops bias row i 0).bidx ≠ (winner B ops bias row k 0).bidx := fun k hk =>
      (rankAvailable_winner hops (hall k hk)).2.2
    have hinj : Set.InjOn (fun k => (winner B ops bias row k 0).bidx) (Finset.range n) := by
      intro k hk k' hk' heq
      have hk := Finset.mem_range.mp (Finset.mem_coe.mp hk)
      have hk' := Finset.mem_range.mp (Finset.mem_coe.mp hk')
      rcases Nat.lt_trichotomy k k' with hlt | rfl | hgt
      · exact absurd heq (hfresh k' hk' k hlt)
      · rfl
      · exact absurd heq.symm (hfresh k hk k' hgt)
    have hcard := Finset.card_le_card_of_injOn _ hmaps hinj
    rwa [Finset.card_range] at hcard
  · intro hcard k hk
    obtain ⟨e, hsel, hfresh⟩ : ∃ e ∈ offered B ops bias row,
        e ∉ (Finset.range k).image fun i => (winner B ops bias row i 0).bidx := by
      by_contra hall
      push Not at hall
      have hle := Finset.card_le_card (show offered B ops bias row ⊆ _ from hall)
      have himage := (Finset.card_image_le (s := Finset.range k)
        (f := fun i => (winner B ops bias row i 0).bidx)).trans_eq (Finset.card_range k)
      omega
    obtain ⟨he, hlow⟩ := (mem_offered hops).mp hsel
    have hav : RankAvailable rank B ops bias row k e := by
      refine ⟨he, hlow, fun i hi heq => hfresh ?_⟩
      exact Finset.mem_image.mpr ⟨i, Finset.mem_range.mpr hi, heq⟩
    obtain ⟨e', hav', hwin, _⟩ := winner_ranked hops hav
    rw [hwin]
    exact hav'.1

end Ranked

/-! ## What is selected -/

section Correctness

variable {F : Type*} [LinearOrder F] {B : Build} {ops : FloatOps F} {bias : Option (ℕ → F)}
  {row : ℕ → F}

/-- The masked argmax finds nothing when nothing beats `-FLT_MAX`, and otherwise the lowest index
among the best. -/
lemma maskedArgmax_spec (hops : ops.Ordered) (used : ℕ → Bool) (score : ℕ → F) (n : ℕ) :
    match (maskedArgmax ops used score n).2 with
    | none => (maskedArgmax ops used score n).1 = ops.lowest ∧
        ∀ j < n, used j = false → score j ≤ ops.lowest
    | some i => (maskedArgmax ops used score n).1 = score i ∧ i < n ∧ used i = false ∧
        ops.lowest < score i ∧ ∀ j < n, used j = false →
          score j < score i ∨ (score j = score i ∧ i ≤ j) :=
  maskedArgmax_ranked hops.ranked used score n

/-- The merge is as good as the own candidate, for ordered operations. -/
lemma Candidate.le_merge_left (hops : ops.Ordered) (a o : Candidate F) :
    a.Le (Candidate.merge ops a o) :=
  Candidate.le_merge_left_ranked hops.ranked trivial trivial

/-- And as good as that of the other lane. -/
lemma Candidate.le_merge_right (hops : ops.Ordered) (a o : Candidate F) :
    o.Le (Candidate.merge ops a o) :=
  Candidate.le_merge_right_ranked hops.ranked trivial trivial

/-- Expert `e` can still be selected in round `k`. -/
def Available (B : Build) (ops : FloatOps F) (bias : Option (ℕ → F)) (row : ℕ → F) (k e : ℕ) :
    Prop :=
  e < B.numExperts ∧ ops.lowest < score B ops bias row e ∧
    ∀ i < k, (winner B ops bias row i 0).bidx ≠ e

/-- All lanes agree on the winner of a round. -/
theorem winner_agree (hops : ops.Ordered) (k : ℕ) {lane : ℕ} (hlane : lane < 32) :
    (winner B ops bias row k lane).bidx = (winner B ops bias row k 0).bidx :=
  winner_agree_ranked hops.ranked k hlane

/-- What a lane proposes in round `k`. -/
lemma laneCandidate_spec (hops : ops.Ordered) (B : Build) (bias : Option (ℕ → F)) (row : ℕ → F)
    (k : ℕ) {lane : ℕ} (hlane : lane < 32) :
    ((laneCandidate B ops bias row (usedBefore B ops bias row k) lane).bidx = int32Max ∧
      (laneCandidate B ops bias row (usedBefore B ops bias row k) lane).best = ops.lowest ∧
        ∀ e, e % 32 = lane → ¬ Available B ops bias row k e) ∨
    (∃ e, e % 32 = lane ∧ Available B ops bias row k e ∧
      laneCandidate B ops bias row (usedBefore B ops bias row k) lane =
        ⟨score B ops bias row e, e, unbiased B ops row (e % 32) (e / 32)⟩ ∧
      ∀ e', e' % 32 = lane → Available B ops bias row k e' →
        score B ops bias row e' < score B ops bias row e ∨
          (score B ops bias row e' = score B ops bias row e ∧ e ≤ e')) :=
  laneCandidate_ranked hops.ranked B bias row k hlane

/-- A round in which some expert is available selects the best one, the lowest among equals. -/
theorem winner_spec (hops : ops.Ordered) {k e₀ : ℕ} (he₀ : Available B ops bias row k e₀) :
    ∃ e, Available B ops bias row k e ∧
      winner B ops bias row k 0 =
        ⟨score B ops bias row e, e, unbiased B ops row (e % 32) (e / 32)⟩ ∧
      ∀ e', Available B ops bias row k e' → score B ops bias row e' < score B ops bias row e ∨
        (score B ops bias row e' = score B ops bias row e ∧ e ≤ e') :=
  winner_ranked hops.ranked he₀

/-- A round in which nothing is available yields `INT32_MAX`. -/
theorem winner_eq_int32Max (hops : ops.Ordered) {k : ℕ}
    (h : ∀ e, ¬ Available B ops bias row k e) : (winner B ops bias row k 0).bidx = int32Max :=
  winner_eq_int32Max_ranked hops.ranked h

/-- The experts that can be selected at all. -/
def selectable (B : Build) (ops : FloatOps F) (bias : Option (ℕ → F)) (row : ℕ → F) : Finset ℕ :=
  (Finset.range B.numExperts).filter fun e => ops.lowest < score B ops bias row e

/-- As long as fewer experts have been selected than are selectable, a round selects one. -/
theorem winner_lt_of_card (hops : ops.Ordered) {k : ℕ}
    (hk : k < (selectable B ops bias row).card) :
    (winner B ops bias row k 0).bidx < B.numExperts := by
  have hoffered : selectable B ops bias row = offered B ops bias row := by
    ext e
    rw [mem_offered hops.ranked, selectable, Finset.mem_filter, Finset.mem_range]
    rfl
  rw [hoffered] at hk
  exact (winners_lt_iff hops.ranked (k + 1)).mpr hk k (Nat.lt_succ_self k)

omit [LinearOrder F] in
/-- Under softmax the selection score is the logit. -/
lemma score_of_softmax (hmode : B.routerMode = 0) (e : ℕ) : score B ops bias row e = row e := by
  have hexpert : e % 32 + 32 * (e / 32) = e := Nat.mod_add_div e 32
  simp [score, selScore, biased, laneLogit, hmode, hexpert]

end Correctness

end UnimonoMoe
