import Mathlib.Data.List.Nodup
import Mathlib.Data.List.Range
import Mathlib.Logic.ExistsUnique
import Mathlib.Order.Lattice
import Mathlib.Tactic.Ring

/-!
# Strided loops, running maxima and monotone partitions

Pieces of index arithmetic that data-parallel code rests on.

`strided lo hi step` lists the values taken by the loop variable of
`for (x = lo; x < hi; x += step)`.  When `step` workers start at `lo`, `lo + 1`, ..., every
index of `[lo, hi)` is visited by exactly one of them (`exists_unique_strided`).  The unrolled
form, in which one pass covers `unroll` strides at once and its tail is predicated, visits the
same indices (`mem_unrolled`).

`foldl_max_le_iff` and `foldl_max_mem` are about loops that keep a running maximum.

`Boundaries` are monotone cut points.  A family of cut points splits the interval between its
ends into consecutive half-open pieces, and every index lies in exactly one piece
(`exists_unique_piece`).
-/

namespace Loops

/-! ## Row-major indices -/

/-- The row of a row-major index. -/
lemma rowMajor_div {n q r : ℕ} (hr : r < n) : (q * n + r) / n = q := by
  rw [Nat.mul_comm, Nat.mul_add_div (Nat.zero_lt_of_lt hr), Nat.div_eq_of_lt hr, Nat.add_zero]

/-- The column of a row-major index. -/
lemma rowMajor_mod {n q r : ℕ} (hr : r < n) : (q * n + r) % n = r := by
  rw [Nat.mul_comm, Nat.mul_add_mod, Nat.mod_eq_of_lt hr]

/-- A row-major index determines its row and its column. -/
lemma rowMajor_inj {n q q' r r' : ℕ} (hr : r < n) (hr' : r' < n)
    (heq : q * n + r = q' * n + r') : q = q' ∧ r = r' := by
  have hdiv := congrArg (· / n) heq
  have hmod := congrArg (· % n) heq
  simp only [rowMajor_div, rowMajor_mod, hr, hr'] at hdiv hmod
  exact ⟨hdiv, hmod⟩

/-- A row-major index lies below the size of the table. -/
lemma rowMajor_lt {n m q r : ℕ} (hq : q < m) (hr : r < n) : q * n + r < m * n := by
  calc q * n + r < q * n + n := Nat.add_lt_add_left hr _
    _ = (q + 1) * n := (Nat.succ_mul _ _).symm
    _ ≤ m * n := Nat.mul_le_mul_right _ hq

/-- Two indices of one slot of a ring are a whole round apart. -/
lemma add_le_of_mod_eq {d k l : ℕ} (h : k % d = l % d) (hlt : k < l) : k + d ≤ l := by
  have hdvd : d ∣ l - k := Nat.dvd_of_mod_eq_zero (Nat.sub_mod_eq_zero_of_mod_eq h.symm)
  have hle := Nat.le_of_dvd (Nat.sub_pos_of_lt hlt) hdvd
  omega

/-! ## Strided loops -/

/-- The values of `x` in `for (x = lo; x < hi; x += step)`. -/
def strided (lo hi step : ℕ) : List ℕ :=
  List.range' lo ((hi - lo + step - 1) / step) step

/-- A strided loop visits the indices of its range that are congruent to its start. -/
lemma mem_strided {lo hi step x : ℕ} (hstep : 0 < step) :
    x ∈ strided lo hi step ↔ lo ≤ x ∧ x < hi ∧ (x - lo) % step = 0 := by
  unfold strided
  rw [List.mem_range']
  constructor
  · rintro ⟨i, hi', rfl⟩
    have hbound : step * i < hi - lo := by
      by_contra hle
      have hle' : hi - lo ≤ step * i := Nat.le_of_not_lt hle
      have hdiv : (hi - lo + step - 1) / step ≤ i := by
        rw [Nat.div_le_iff_le_mul_add_pred hstep]
        omega
      omega
    refine ⟨by omega, by omega, ?_⟩
    rw [Nat.add_sub_cancel_left]
    exact Nat.mul_mod_right step i
  · rintro ⟨hlo, hhi, hmod⟩
    have hx : x - lo = step * ((x - lo) / step) := by
      have := Nat.div_add_mod (x - lo) step
      omega
    refine ⟨(x - lo) / step, ?_, by omega⟩
    rw [Nat.lt_div_iff_mul_lt hstep]
    have hcomm : (x - lo) / step * step = step * ((x - lo) / step) := Nat.mul_comm _ _
    omega

/-- A strided loop never visits an index twice. -/
lemma nodup_strided {lo hi step : ℕ} (hstep : 0 < step) : (strided lo hi step).Nodup :=
  List.nodup_range' step hstep

/-- A strided loop past its end has no turn left. -/
lemma strided_of_le {lo hi step : ℕ} (hstep : 0 < step) (h : hi ≤ lo) :
    strided lo hi step = [] := by
  have hcount : (hi - lo + step - 1) / step = 0 := Nat.div_eq_of_lt (by omega)
  rw [strided, hcount, List.range'_zero]

/-- The first turn of a strided loop. -/
lemma strided_of_lt {lo hi step : ℕ} (hstep : 0 < step) (h : lo < hi) :
    strided lo hi step = lo :: strided (lo + step) hi step := by
  have hcount : (hi - lo + step - 1) / step = (hi - (lo + step) + step - 1) / step + 1 := by
    rcases Nat.le_total (lo + step) hi with hle | hle
    · rw [← Nat.add_div_right _ hstep]
      congr 1
      omega
    · rw [show hi - (lo + step) + step - 1 = step - 1 by omega,
        Nat.div_eq_of_lt (Nat.sub_lt hstep Nat.one_pos), Nat.div_eq_of_lt_le] <;> omega
  rw [strided, hcount, List.range'_succ]
  rfl

/-- Workers `0, ..., step - 1` running the same strided loop from consecutive starts visit the
index `x` with the worker `(x - lo) % step` and with no other. -/
lemma mem_strided_worker {lo hi step w x : ℕ} (hw : w < step) :
    x ∈ strided (lo + w) hi step ↔ lo ≤ x ∧ x < hi ∧ (x - lo) % step = w := by
  have hstep : 0 < step := Nat.lt_of_le_of_lt (Nat.zero_le w) hw
  rw [mem_strided hstep]
  constructor
  · rintro ⟨hlo, hhi, hmod⟩
    refine ⟨by omega, hhi, ?_⟩
    have hsplit : x - lo = (x - (lo + w)) + w := by omega
    rw [hsplit, Nat.add_mod, hmod, Nat.zero_add, Nat.mod_mod, Nat.mod_eq_of_lt hw]
  · rintro ⟨hlo, hhi, hmod⟩
    have hle : w ≤ x - lo := hmod ▸ Nat.mod_le (x - lo) step
    refine ⟨by omega, hhi, ?_⟩
    have hsub : x - (lo + w) = (x - lo) - w := by omega
    rw [hsub, ← hmod]
    exact Nat.sub_mod_eq_zero_of_mod_eq (by rw [Nat.mod_mod])

/-- Every index of the range is visited by exactly one worker. -/
theorem exists_unique_strided {lo hi step x : ℕ} (hstep : 0 < step) (hlo : lo ≤ x)
    (hhi : x < hi) : ∃! w, w < step ∧ x ∈ strided (lo + w) hi step := by
  refine ⟨(x - lo) % step, ⟨Nat.mod_lt _ hstep, ?_⟩, ?_⟩
  · exact (mem_strided_worker (Nat.mod_lt _ hstep)).mpr ⟨hlo, hhi, rfl⟩
  · rintro w ⟨hw, hmem⟩
    exact ((mem_strided_worker hw).mp hmem).2.2.symm

/-! ## Unrolled loops -/

/-- One pass of an unrolled loop at `base`: the `unroll` indices `base + u * stride`, those past
the end of the range being switched off. -/
def unrolledPass (hi stride unroll base : ℕ) : List ℕ :=
  ((List.range unroll).map fun u => base + u * stride).filter (· < hi)

/-- The passes of worker `w` when each pass covers `unroll` strides. -/
def unrolledBases (lo hi stride unroll w : ℕ) : List ℕ :=
  strided (lo + w) hi (unroll * stride)

/-- Membership in one pass of an unrolled loop. -/
lemma mem_unrolledPass {hi stride unroll base x : ℕ} :
    x ∈ unrolledPass hi stride unroll base ↔
      ∃ u, u < unroll ∧ x = base + u * stride ∧ x < hi := by
  simp only [unrolledPass, List.mem_filter, List.mem_map, List.mem_range, decide_eq_true_eq]
  constructor
  · rintro ⟨⟨u, hu, rfl⟩, hx⟩
    exact ⟨u, hu, rfl, hx⟩
  · rintro ⟨u, hu, rfl, hx⟩
    exact ⟨⟨u, hu, rfl⟩, hx⟩

/-- One pass of an unrolled loop does not repeat an index. -/
lemma nodup_unrolledPass (hi unroll base : ℕ) {stride : ℕ} (hstride : 0 < stride) :
    (unrolledPass hi stride unroll base).Nodup := by
  refine List.Nodup.filter _ (List.Nodup.map ?_ List.nodup_range)
  intro a b hab
  exact Nat.eq_of_mul_eq_mul_right hstride (Nat.add_left_cancel hab)

/-- The unrolled loop of worker `w` visits the indices of its range congruent to `w`. -/
theorem mem_unrolled {lo hi stride unroll w x : ℕ} (hw : w < stride) (hunroll : 0 < unroll) :
    (∃ base ∈ unrolledBases lo hi stride unroll w, x ∈ unrolledPass hi stride unroll base) ↔
      lo ≤ x ∧ x < hi ∧ (x - lo) % stride = w := by
  have hstride : 0 < stride := Nat.lt_of_le_of_lt (Nat.zero_le w) hw
  have hwide : 0 < unroll * stride := Nat.mul_pos hunroll hstride
  constructor
  · rintro ⟨base, hbase, hx⟩
    obtain ⟨u, _, rfl, hxhi⟩ := mem_unrolledPass.mp hx
    obtain ⟨hlo, _, hmod⟩ := (mem_strided hwide).mp hbase
    obtain ⟨q, hq⟩ := Nat.dvd_of_mod_eq_zero hmod
    refine ⟨by omega, hxhi, ?_⟩
    have hsplit : base + u * stride - lo = w + stride * (unroll * q + u) := by
      have hqs : unroll * stride * q = stride * (unroll * q) := by ring
      have hus : u * stride = stride * u := Nat.mul_comm _ _
      rw [Nat.mul_add]
      omega
    rw [hsplit, Nat.add_mul_mod_self_left, Nat.mod_eq_of_lt hw]
  · rintro ⟨hlo, hhi, hmod⟩
    have hx : x - lo = w + stride * ((x - lo) / stride) := by
      have := Nat.div_add_mod (x - lo) stride
      omega
    generalize hd : (x - lo) / stride = d at hx
    have hsplit : stride * d = unroll * stride * (d / unroll) + d % unroll * stride := by
      calc stride * d = stride * (unroll * (d / unroll) + d % unroll) := by
            rw [Nat.div_add_mod]
        _ = unroll * stride * (d / unroll) + d % unroll * stride := by ring
    refine ⟨lo + w + unroll * stride * (d / unroll), ?_, ?_⟩
    · refine (mem_strided hwide).mpr ⟨by omega, by omega, ?_⟩
      have hcancel : lo + w + unroll * stride * (d / unroll) - (lo + w) =
          unroll * stride * (d / unroll) := by omega
      rw [hcancel, Nat.mul_mod_right]
    · exact mem_unrolledPass.mpr ⟨d % unroll, Nat.mod_lt _ hunroll, by omega, hhi⟩

/-- Two passes of the same worker that share an index are the same pass. -/
lemma unrolledBases_injOn {lo hi stride unroll w b b' x : ℕ} (hw : w < stride)
    (hunroll : 0 < unroll) (hb : b ∈ unrolledBases lo hi stride unroll w)
    (hb' : b' ∈ unrolledBases lo hi stride unroll w) (hx : x ∈ unrolledPass hi stride unroll b)
    (hx' : x ∈ unrolledPass hi stride unroll b') : b = b' := by
  have hstride : 0 < stride := Nat.lt_of_le_of_lt (Nat.zero_le w) hw
  have hwide : 0 < unroll * stride := Nat.mul_pos hunroll hstride
  obtain ⟨u, hu, rfl, _⟩ := mem_unrolledPass.mp hx
  obtain ⟨u', hu', heq, _⟩ := mem_unrolledPass.mp hx'
  obtain ⟨hlo, _, hmod⟩ := (mem_strided hwide).mp hb
  obtain ⟨hlo', _, hmod'⟩ := (mem_strided hwide).mp hb'
  obtain ⟨q, hq⟩ := Nat.dvd_of_mod_eq_zero hmod
  obtain ⟨q', hq'⟩ := Nat.dvd_of_mod_eq_zero hmod'
  have hcount : stride * (unroll * q + u) = stride * (unroll * q' + u') := by
    have h1 : stride * (unroll * q + u) = unroll * stride * q + u * stride := by ring
    have h2 : stride * (unroll * q' + u') = unroll * stride * q' + u' * stride := by ring
    omega
  have hsum : unroll * q + u = unroll * q' + u' := Nat.eq_of_mul_eq_mul_left hstride hcount
  have hqq : q = q' := by
    have h1 : (unroll * q + u) / unroll = q := by
      rw [Nat.mul_add_div hunroll, Nat.div_eq_of_lt hu, Nat.add_zero]
    have h2 : (unroll * q' + u') / unroll = q' := by
      rw [Nat.mul_add_div hunroll, Nat.div_eq_of_lt hu', Nat.add_zero]
    rw [← h1, ← h2, hsum]
  subst hqq
  omega

/-! ## Monotone partitions -/

/-- The pieces `[cut i, cut (i + 1))` for `i < n` cover `[cut 0, cut n)` without overlap. -/
theorem exists_unique_piece {cut : ℕ → ℕ} (hmono : Monotone cut) {n x : ℕ}
    (hlo : cut 0 ≤ x) (hhi : x < cut n) : ∃! i, i < n ∧ cut i ≤ x ∧ x < cut (i + 1) := by
  have hex : ∃ i, x < cut (i + 1) := by
    cases n with
    | zero => omega
    | succ n => exact ⟨n, hhi⟩
  classical
  have hfind : x < cut (Nat.find hex + 1) := Nat.find_spec hex
  have hbelow : cut (Nat.find hex) ≤ x := by
    cases hcase : Nat.find hex with
    | zero => exact hlo
    | succ k =>
      have hk : k < Nat.find hex := by omega
      exact Nat.le_of_not_lt (Nat.find_min hex hk)
  refine ⟨Nat.find hex, ⟨?_, hbelow, hfind⟩, ?_⟩
  · by_contra hge
    have : cut n ≤ cut (Nat.find hex) := hmono (Nat.le_of_not_lt hge)
    omega
  · rintro j ⟨_, hj, hj'⟩
    rcases Nat.lt_trichotomy j (Nat.find hex) with h | h | h
    · have : cut (j + 1) ≤ cut (Nat.find hex) := hmono h
      omega
    · exact h
    · have : cut (Nat.find hex + 1) ≤ cut j := hmono h
      omega

/-- The cut points `n * i / k` of an even split are monotone in `i`. -/
lemma evenCut_mono (n k : ℕ) : Monotone fun i => n * i / k := fun _ _ h =>
  Nat.div_le_div_right (Nat.mul_le_mul_left n h)

/-- The even split of `[0, n)` into `k` pieces covers every index exactly once. -/
theorem exists_unique_evenPiece {n k x : ℕ} (hk : 0 < k) (hx : x < n) :
    ∃! i, i < k ∧ n * i / k ≤ x ∧ x < n * (i + 1) / k := by
  have hend : n * k / k = n := Nat.mul_div_cancel n hk
  exact exists_unique_piece (evenCut_mono n k) (by simp) (by simpa [hend] using hx)

/-- Workers that visit no index twice, stay inside a range and share it out visit the range
exactly once. -/
theorem flatMap_perm_range {α : Type*} {l : List α} {f : α → List ℕ} {lo hi : ℕ} (hl : l.Nodup)
    (hf : ∀ a ∈ l, (f a).Nodup) (hsound : ∀ a ∈ l, ∀ x ∈ f a, lo ≤ x ∧ x < hi)
    (hunique : ∀ x, lo ≤ x → x < hi → ∃! a, a ∈ l ∧ x ∈ f a) :
    (l.flatMap f).Perm (List.range' lo (hi - lo)) := by
  refine (List.perm_ext_iff_of_nodup ?_ List.nodup_range').mpr fun x => ?_
  · refine List.nodup_flatMap.mpr ⟨hf, hl.imp_of_mem fun {a b} ha hb hne x hx hx' => hne ?_⟩
    obtain ⟨hlo, hhi⟩ := hsound a ha x hx
    exact (hunique x hlo hhi).unique ⟨ha, hx⟩ ⟨hb, hx'⟩
  · rw [List.mem_flatMap, List.mem_range'_1]
    constructor
    · rintro ⟨a, ha, hx⟩
      have := hsound a ha x hx
      omega
    · intro hx
      obtain ⟨a, ha, _⟩ := hunique x (by omega) (by omega)
      exact ⟨a, ha⟩

/-! ## Running maxima -/

section Maxima

variable {ι α : Type*} [LinearOrder α] (f : ι → α)

/-- A running maximum is the least bound of what it has seen. -/
lemma foldl_max_le_iff (l : List ι) (a b : α) :
    l.foldl (fun acc i => max acc (f i)) a ≤ b ↔ a ≤ b ∧ ∀ i ∈ l, f i ≤ b := by
  induction l generalizing a with
  | nil => simp
  | cons i l ih => rw [List.foldl_cons, ih, max_le_iff, List.forall_mem_cons, and_assoc]

/-- A running maximum is above what it starts from and above all that it has seen. -/
lemma le_foldl_max (l : List ι) (a : α) :
    a ≤ l.foldl (fun acc i => max acc (f i)) a ∧
      ∀ i ∈ l, f i ≤ l.foldl (fun acc i => max acc (f i)) a :=
  (foldl_max_le_iff f l a _).mp le_rfl

/-- A running maximum is what it starts from or something that it has seen. -/
lemma foldl_max_mem (l : List ι) (a : α) :
    l.foldl (fun acc i => max acc (f i)) a = a ∨
      ∃ i ∈ l, l.foldl (fun acc i => max acc (f i)) a = f i := by
  induction l generalizing a with
  | nil => exact Or.inl rfl
  | cons i l ih =>
    rw [List.foldl_cons]
    rcases ih (max a (f i)) with h | ⟨j, hj, h⟩
    · rcases max_choice a (f i) with hm | hm
      · exact Or.inl (h.trans hm)
      · exact Or.inr ⟨i, List.mem_cons_self, h.trans hm⟩
    · exact Or.inr ⟨j, List.mem_cons_of_mem i hj, h⟩

end Maxima

end Loops
