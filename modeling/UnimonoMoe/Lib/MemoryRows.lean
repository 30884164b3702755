import UnimonoMoe.Lib.RowBuffers

/-!
# Buffers in one memory

Several buffers of `RowBuffers` that lie in one flat memory and may share addresses.  A kernel is a
loop over rows at a base address that computes each row from what the memory holds by then
(`rowLoop`).  If a row depends on nothing that the loop writes, except on what the row itself held
before, the loop leaves what `fillRows` writes with the rows computed beforehand
(`load_rowLoop`, `load_rowLoop_of_nodup`), and it changes nothing but its rows (`rowLoop_frame`).
-/

namespace RowBuffers

variable {V : Type} {w w' : ℕ}

/-- The memory from an address on. -/
def load (base : ℕ) (mem : ℕ → V) : ℕ → V := fun p => mem (base + p)

/-- New contents from an address on. -/
def overlay (base : ℕ) (mem buf : ℕ → V) : ℕ → V := fun p =>
  if base ≤ p then buf (p - base) else mem p

/-- A loop over rows at an address. -/
def rowLoop (base : ℕ) (rows : List ℕ) (f : (ℕ → V) → ℕ → Fin w → V) (mem : ℕ → V) : ℕ → V :=
  rows.foldl (fun mem i => overlay base mem (writeRow (load base mem) i (f mem i))) mem

/-- Two memories hold the same outside `size` addresses from `base` on. -/
def SameOutside (base size : ℕ) (mem mem' : ℕ → V) : Prop :=
  ∀ p, p < base ∨ base + size ≤ p → mem' p = mem p

variable {base base' size n : ℕ} {mem mem' mem'' buf : ℕ → V} {rows : List ℕ} {i j : ℕ}
  {f : (ℕ → V) → ℕ → Fin w → V}

/-- A buffer that is put into the memory can be read back. -/
@[simp] lemma load_overlay : load base (overlay base mem buf) = buf := by
  funext p
  unfold load overlay
  rw [if_pos (Nat.le_add_right _ _), Nat.add_sub_cancel_left]

/-- Nothing has changed. -/
lemma SameOutside.refl (base size : ℕ) (mem : ℕ → V) : SameOutside base size mem mem :=
  fun _ _ => rfl

/-- What two parts leave alone is left alone by both together. -/
lemma SameOutside.trans (h : SameOutside base size mem mem')
    (h' : SameOutside base size mem' mem'') : SameOutside base size mem mem'' :=
  fun p hp => (h' p hp).trans (h p hp)

/-- Rows that do not overlap the changed addresses. -/
lemma SameOutside.readRow_eq (h : SameOutside base size mem mem') (hi : i < n)
    (hdisj : base' + n * w ≤ base ∨ base + size ≤ base') :
    readRow w (load base' mem') i = readRow w (load base' mem) i := by
  funext c
  have hlt : i * w + c < n * w := Loops.rowMajor_lt hi c.isLt
  exact h (base' + (i * w + c)) (by omega)

/-- A row that lies below the bound changes nothing above it. -/
lemma sameOutside_writeRow {row : Fin w → V} (hi : i < n) :
    SameOutside base (n * w) mem (overlay base mem (writeRow (load base mem) i row)) := by
  intro p hp
  unfold overlay
  split_ifs with hbase
  · unfold writeRow
    rw [dif_neg]
    · unfold load
      rw [Nat.add_sub_cancel' hbase]
    · rintro ⟨hw, hdiv⟩
      have hlt : p - base < n * w := by
        rw [← Nat.div_lt_iff_lt_mul hw, hdiv]
        exact hi
      omega
  · rfl

/-- The last row of a loop is written over what the others leave. -/
lemma rowLoop_append (rows : List ℕ) (j : ℕ) : rowLoop base (rows ++ [j]) f mem =
    overlay base (rowLoop base rows f mem)
      (writeRow (load base (rowLoop base rows f mem)) j (f (rowLoop base rows f mem) j)) := by
  rw [rowLoop, List.foldl_append]
  rfl

/-- A loop changes nothing but its rows. -/
theorem rowLoop_frame (hrows : ∀ i ∈ rows, i < n) :
    SameOutside base (n * w) mem (rowLoop base rows f mem) := by
  induction rows using List.reverseRecOn with
  | nil => exact .refl _ _ _
  | append_singleton rows j ih =>
    rw [rowLoop_append]
    exact (ih fun i hi => hrows i (List.mem_append_left _ hi)).trans
      (sameOutside_writeRow (hrows j (by simp)))

/-- What a loop leaves, if a row is the same whether it is computed before the loop or when its turn
comes. -/
lemma load_rowLoop_of_turn (hturn : ∀ pre j, pre ++ [j] <+: rows →
    load base (rowLoop base pre f mem) = fillRows (load base mem) pre (f mem) →
      f (rowLoop base pre f mem) j = f mem j) :
    load base (rowLoop base rows f mem) = fillRows (load base mem) rows (f mem) := by
  induction rows using List.reverseRecOn with
  | nil => rfl
  | append_singleton rows j ih =>
    have hpre := ih fun pre j hpre => hturn pre j (hpre.trans (List.prefix_append _ _))
    rw [rowLoop_append, load_overlay, hturn rows j (List.prefix_refl _) hpre, hpre, fillRows,
      fillRows, List.foldl_append]
    rfl

/-- What a loop leaves whose rows depend on nothing that it writes. -/
theorem load_rowLoop (hrows : ∀ i ∈ rows, i < n)
    (hf : ∀ mem', SameOutside base (n * w) mem mem' → ∀ i ∈ rows, f mem' i = f mem i) :
    load base (rowLoop base rows f mem) = fillRows (load base mem) rows (f mem) := by
  refine load_rowLoop_of_turn fun pre j hpre _ => ?_
  have hsub : ∀ i ∈ pre, i ∈ rows := fun i hi =>
    hpre.subset (List.mem_append_left _ hi)
  exact hf _ (rowLoop_frame fun i hi => hrows i (hsub i hi)) j (hpre.subset (by simp))

/-- What a loop leaves whose rows depend on nothing that it writes but what the row itself held. -/
theorem load_rowLoop_of_nodup (hrows : ∀ i ∈ rows, i < n) (hnodup : rows.Nodup)
    (hf : ∀ mem', SameOutside base (n * w) mem mem' → ∀ i ∈ rows,
      readRow w (load base mem') i = readRow w (load base mem) i → f mem' i = f mem i) :
    load base (rowLoop base rows f mem) = fillRows (load base mem) rows (f mem) := by
  refine load_rowLoop_of_turn fun pre j hpre hload => ?_
  have hsub : ∀ i ∈ pre, i ∈ rows := fun i hi => hpre.subset (List.mem_append_left _ hi)
  have hj : j ∉ pre := by
    have hnodup' := hpre.sublist.nodup hnodup
    exact fun hmem => (List.nodup_append.mp hnodup').2.2 j hmem j (by simp) rfl
  refine hf _ (rowLoop_frame fun i hi => hrows i (hsub i hi)) j (hpre.subset (by simp)) ?_
  rw [hload, readRow_fillRows, if_neg hj]

/-- A row after a loop. -/
lemma readRow_rowLoop (h : load base (rowLoop base rows f mem) =
    fillRows (load base mem) rows (f mem)) (hi : i ∈ rows) :
    readRow w (load base (rowLoop base rows f mem)) i = f mem i := by
  rw [h, readRow_fillRows, if_pos hi]

end RowBuffers
