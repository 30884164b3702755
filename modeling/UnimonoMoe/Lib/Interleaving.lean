import Mathlib.Algebra.BigOperators.Group.Finset.Basic
import Mathlib.Data.Fintype.Basic
import Mathlib.Data.Fintype.Card
import Mathlib.Data.List.Nodup
import Mathlib.Data.List.Sublists
import Mathlib.Logic.Function.Basic

/-!
# Interleavings of straight-line programs

Between two barriers the threads of a data-parallel program run lists of operations that never
wait.  A run of such a phase is a list of operations, each with its thread, whose restriction to
any thread is that thread's program (`Interleaves`).

The first part relates a run to the programs: what occurs in it, how often, and in which order.
When every piece of work lies in the program of exactly one thread, the run performs every piece
of work exactly once (`Covers.nodup`, `Covers.mem_iff`).  The second part is about phases whose
operations store to distinct addresses: whatever the interleaving, every address ends up with the
value stored to it (`storeAll_of_mem`).
-/

namespace Interleaving

variable {τ ι κ α V : Type*}

/-! ## Runs -/

/-- `run` interleaves the programs `prog`. -/
def Interleaves [DecidableEq τ] (prog : τ → List ι) (run : List (τ × ι)) : Prop :=
  ∀ t, (run.filter fun p => p.1 = t).map Prod.snd = prog t

section Run

variable [DecidableEq τ] {prog : τ → List ι} {run : List (τ × ι)} {t : τ} {i j : ι}

/-- A run performs what the programs contain. -/
lemma Interleaves.mem_iff (h : Interleaves prog run) : (t, i) ∈ run ↔ i ∈ prog t := by
  rw [← h t, List.mem_map]
  constructor
  · intro hmem
    exact ⟨(t, i), List.mem_filter.mpr ⟨hmem, by simp⟩, rfl⟩
  · rintro ⟨⟨t', i'⟩, hmem, rfl⟩
    obtain ⟨hrun, ht⟩ := List.mem_filter.mp hmem
    obtain rfl : t' = t := by simpa using ht
    exact hrun

/-- When no program repeats an operation, neither does a run. -/
lemma Interleaves.nodup (h : Interleaves prog run) (hprog : ∀ t, (prog t).Nodup) : run.Nodup := by
  rw [List.nodup_iff_sublist]
  rintro ⟨t, i⟩ hsub
  have hpair := (hsub.filter fun p => p.1 = t).map Prod.snd
  rw [h t] at hpair
  exact List.nodup_iff_sublist.mp (hprog t) i (by simpa using hpair)

/-- What a thread runs before `j` lies before `j` in the run. -/
lemma Interleaves.mem_left_of_sublist (h : Interleaves prog run) (hprog : (prog t).Nodup)
    (hij : List.Sublist [i, j] (prog t)) {pre suf : List (τ × ι)}
    (hrun : run = pre ++ (t, j) :: suf) :
    (t, i) ∈ pre := by
  have hsplit : (pre.filter fun p => p.1 = t).map Prod.snd ++
      j :: (suf.filter fun p => p.1 = t).map Prod.snd = prog t := by
    rw [← h t, hrun]
    simp [List.filter_append]
  rw [← hsplit] at hij hprog
  obtain ⟨_, hnodup, hdisj⟩ := List.nodup_append.mp hprog
  have hjsuf := (List.nodup_cons.mp hnodup).1
  obtain ⟨l₁, l₂, heq, hl₁, hl₂⟩ := List.sublist_append_iff.mp hij
  have hi : i ∈ (pre.filter fun p => p.1 = t).map Prod.snd := by
    match l₁, heq with
    | [], heq =>
      obtain rfl : [i, j] = l₂ := heq
      rcases List.sublist_cons_iff.mp hl₂ with htail | ⟨r, hr, htail⟩
      · exact absurd (htail.subset (by simp)) hjsuf
      · obtain ⟨rfl, rfl⟩ := List.cons_eq_cons.mp hr
        exact absurd (htail.subset (by simp)) hjsuf
    | k :: l₁', heq =>
      obtain ⟨rfl, _⟩ := List.cons_eq_cons.mp heq
      exact hl₁.subset List.mem_cons_self
  obtain ⟨⟨t', i'⟩, hmem, rfl⟩ := List.mem_map.mp hi
  obtain ⟨hpre, ht⟩ := List.mem_filter.mp hmem
  obtain rfl : t' = t := by simpa using ht
  exact hpre

/-- Dropping and renaming operations, the same way in the run and in the programs. -/
lemma Interleaves.filterMap (h : Interleaves prog run) (sel : τ → ι → Option κ) :
    Interleaves (fun t => (prog t).filterMap (sel t))
      (run.filterMap fun p => (sel p.1 p.2).map (p.1, ·)) := by
  intro t
  refine Eq.trans ?_ (congrArg (List.filterMap (sel t)) (h t))
  clear h
  induction run with
  | nil => rfl
  | cons p run ih =>
    obtain ⟨t', i⟩ := p
    by_cases ht : t' = t
    · subst ht
      cases hsel : sel t' i <;> simpa [hsel] using ih
    · cases hsel : sel t' i <;> simpa [hsel, ht] using ih

/-- The run in which the threads `ts` execute one after the other. -/
def serial (ts : List τ) (prog : τ → List ι) : List (τ × ι) :=
  ts.flatMap fun t => (prog t).map (t, ·)

/-- Executing the threads one after the other is an interleaving. -/
lemma interleaves_serial {ts : List τ} (hnodup : ts.Nodup) (hmem : ∀ t, t ∈ ts) :
    Interleaves prog (serial ts prog) := by
  intro t
  have hown : ∀ t', ((prog t').map (t', ·)).filter (fun p => p.1 = t) =
      if t' = t then (prog t').map (t', ·) else [] := by
    intro t'
    split_ifs with ht
    · exact List.filter_eq_self.mpr fun p hp => by
        obtain ⟨i, _, rfl⟩ := List.mem_map.mp hp
        exact decide_eq_true ht
    · exact List.filter_eq_nil_iff.mpr fun p hp => by
        obtain ⟨i, _, rfl⟩ := List.mem_map.mp hp
        simpa using ht
  have hskip : ∀ l : List τ, t ∉ l →
      (l.flatMap fun t' => if t' = t then (prog t').map (t', ·) else []) = [] := by
    intro l hl
    refine List.flatMap_eq_nil_iff.mpr fun t' ht' => if_neg ?_
    rintro rfl
    exact hl ht'
  obtain ⟨l, r, rfl⟩ := List.append_of_mem (hmem t)
  obtain ⟨_, hr, hdisj⟩ := List.nodup_append.mp hnodup
  have hl : t ∉ l := fun htl => hdisj t htl t List.mem_cons_self rfl
  rw [serial, List.filter_flatMap]
  simp only [hown]
  rw [List.flatMap_append, List.flatMap_cons, hskip l hl, hskip r (List.nodup_cons.mp hr).1,
    if_pos rfl, List.nil_append, List.append_nil, List.map_map]
  exact List.map_id _

/-- The programs perform every piece of work in `p` exactly once, over all threads. -/
structure Covers (prog : τ → List ι) (p : ι → Prop) : Prop where
  nodup_prog : ∀ t, (prog t).Nodup
  exists_thread : ∀ i, p i → ∃ t, i ∈ prog t
  sound : ∀ t i, i ∈ prog t → p i
  unique : ∀ t t' i, i ∈ prog t → i ∈ prog t' → t = t'

variable {p : ι → Prop}

/-- A run performs no piece of work twice. -/
theorem Covers.nodup (hp : Covers prog p) (h : Interleaves prog run) :
    (run.map Prod.snd).Nodup := by
  refine List.Nodup.map_on ?_ (h.nodup hp.nodup_prog)
  rintro ⟨t, i⟩ hti ⟨t', i'⟩ hti' rfl
  rw [hp.unique t t' i (h.mem_iff.mp hti) (h.mem_iff.mp hti')]

/-- A run performs every piece of work. -/
theorem Covers.mem_iff (hp : Covers prog p) (h : Interleaves prog run) :
    i ∈ run.map Prod.snd ↔ p i := by
  rw [List.mem_map]
  constructor
  · rintro ⟨⟨t, i'⟩, hmem, rfl⟩
    exact hp.sound t i' (h.mem_iff.mp hmem)
  · intro hi
    obtain ⟨t, ht⟩ := hp.exists_thread i hi
    exact ⟨(t, i), h.mem_iff.mpr ht, rfl⟩

end Run

/-- A list, read off by index. -/
lemma filterMap_range_getElem? (l : List α) {N : ℕ} (hN : l.length ≤ N) :
    (List.range N).filterMap (fun k => l[k]?) = l := by
  have htake : ∀ N, (List.range N).filterMap (fun k => l[k]?) = l.take N := by
    intro N
    induction N with
    | zero => simp
    | succ N ih =>
      rw [List.range_succ, List.filterMap_append, ih, List.take_add_one]
      congr 1
  rw [htake, List.take_of_length_le hN]

/-! ## Stores to distinct addresses -/

/-- Store `val a` to `addr a`, for every `a` of a list in turn. -/
def storeAll [DecidableEq κ] (addr : α → κ) (val : α → V) (m : κ → V) (l : List α) : κ → V :=
  l.foldl (fun m a => Function.update m (addr a) (val a)) m

section Store

variable [DecidableEq κ] {addr : α → κ} {val : α → V} {m : κ → V} {l : List α} {a : α} {k : κ}

/-- No store leaves the memory. -/
@[simp] lemma storeAll_nil : storeAll addr val m [] = m := rfl

/-- The stores are made in order. -/
@[simp] lemma storeAll_cons :
    storeAll addr val m (a :: l) = storeAll addr val (Function.update m (addr a) (val a)) l := rfl

/-- An address nobody stores to keeps its contents. -/
lemma storeAll_of_forall_ne (h : ∀ a ∈ l, addr a ≠ k) : storeAll addr val m l k = m k := by
  induction l generalizing m with
  | nil => rfl
  | cons b l ih =>
    have hb := h b List.mem_cons_self
    rw [storeAll_cons, ih fun a ha => h a (List.mem_cons_of_mem b ha)]
    exact Function.update_of_ne (Ne.symm hb) _ _

/-- Stores to distinct addresses leave at each address what was stored to it. -/
theorem storeAll_of_mem (hnodup : l.Nodup)
    (hinj : ∀ a ∈ l, ∀ b ∈ l, addr a = addr b → a = b) (ha : a ∈ l) :
    storeAll addr val m l (addr a) = val a := by
  induction l generalizing m with
  | nil => cases ha
  | cons b l ih =>
    obtain ⟨hb, hl⟩ := List.nodup_cons.mp hnodup
    rw [storeAll_cons]
    rcases List.mem_cons.mp ha with rfl | hal
    · have hne : ∀ a' ∈ l, addr a' ≠ addr a := by
        intro a' ha' heq
        obtain rfl := hinj a' (List.mem_cons_of_mem _ ha') a List.mem_cons_self heq
        exact hb ha'
      rw [storeAll_of_forall_ne hne, Function.update_self]
    · exact ih hl (fun a' ha' b' hb' => hinj a' (List.mem_cons_of_mem _ ha') b'
        (List.mem_cons_of_mem _ hb')) hal

/-- A part of the state that `a` alone stores to, and always the same value. -/
lemma foldl_eq_of_mem {σ : Type*} (get : σ → V) {step : σ → α → σ} {v : V} (ha : a ∈ l)
    (hstore : ∀ s, get (step s a) = v) (hkeep : ∀ s, ∀ b ∈ l, b ≠ a → get (step s b) = get s)
    (s : σ) : get (l.foldl step s) = v := by
  induction l using List.reverseRecOn with
  | nil => cases ha
  | append_singleton l b ih =>
    rw [List.foldl_append, List.foldl_cons, List.foldl_nil]
    by_cases hb : b = a
    · subst hb
      exact hstore _
    · rw [hkeep _ b (by simp) hb]
      apply ih
      · exact (List.mem_append.mp ha).resolve_right fun h => hb (List.mem_singleton.mp h).symm
      · exact fun s c hc => hkeep s c (List.mem_append_left _ hc)

/-- Stores to distinct addresses hit each of them once. -/
lemma countP_addr_eq_one (hnodup : l.Nodup)
    (hinj : ∀ a ∈ l, ∀ b ∈ l, addr a = addr b → a = b) (ha : a ∈ l) :
    l.countP (fun b => addr b = addr a) = 1 := by
  classical
  have hsame : l.countP (fun b => addr b = addr a) = l.count a := by
    refine List.countP_congr fun b hb => ?_
    simp only [decide_eq_true_eq, beq_iff_eq]
    exact ⟨fun heq => hinj b hb a ha heq, fun heq => heq ▸ rfl⟩
  rw [hsame]
  exact List.count_eq_one_of_mem hnodup ha

end Store

/-! ## Counting -/

/-- The number of entries of a list without repetition that satisfy `q`, as a cardinality. -/
lemma countP_eq_card {l : List ι} {q : ι → Bool} {s : Finset ι} (hnodup : l.Nodup)
    (hs : ∀ i, i ∈ s ↔ i ∈ l ∧ q i) : l.countP q = s.card := by
  classical
  have hfilter : (l.filter q).toFinset = s := by
    ext i
    rw [List.mem_toFinset, List.mem_filter, hs]
  rw [List.countP_eq_length_filter, ← hfilter,
    List.toFinset_card_of_nodup (hnodup.filter _)]

end Interleaving
