import Mathlib.Data.Fin.Basic
import Mathlib.Data.List.Induction
import Mathlib.Data.Nat.Notation
import UnimonoMoe.Lib.Loops

/-!
# Flat buffers, read and written by rows

A buffer is flat memory; rows of a width `w` are laid over it one after the other, and the same
buffer may be used with different widths.  `fillRows` is a loop that writes some of the rows.
`readRow_fillRows` says what a row holds after the loop: what was written there, or
what it held before.
-/

namespace RowBuffers

variable {V : Type} {w : ℕ}

/-- Row `i` of a buffer. -/
def readRow (w : ℕ) (buf : ℕ → V) (i : ℕ) : Fin w → V := fun c => buf (i * w + c)

/-- New contents for row `i`. -/
def writeRow (buf : ℕ → V) (i : ℕ) (row : Fin w → V) : ℕ → V := fun p =>
  if h : 0 < w ∧ p / w = i then row ⟨p % w, Nat.mod_lt p h.1⟩ else buf p

/-- New contents for the rows of a list. -/
def fillRows (buf : ℕ → V) (rows : List ℕ) (f : ℕ → Fin w → V) : ℕ → V :=
  rows.foldl (fun buf i => writeRow buf i (f i)) buf

variable {buf : ℕ → V} {i j : ℕ} {row : Fin w → V} {f g : ℕ → Fin w → V}

/-- A row keeps what is written to it. -/
lemma readRow_writeRow_self : readRow w (writeRow buf i row) i = row := by
  funext c
  unfold readRow writeRow
  rw [dif_pos ⟨c.pos, Loops.rowMajor_div c.isLt⟩]
  exact congrArg row (Fin.ext (Loops.rowMajor_mod c.isLt))

/-- Other rows are left alone. -/
lemma readRow_writeRow_of_ne (h : i ≠ j) :
    readRow w (writeRow buf j row) i = readRow w buf i := by
  funext c
  unfold readRow writeRow
  rw [dif_neg fun hj => h ((Loops.rowMajor_div c.isLt).symm.trans hj.2)]

/-- What a row holds after a loop over rows. -/
lemma readRow_fillRows (buf : ℕ → V) (rows : List ℕ) (f : ℕ → Fin w → V) (i : ℕ) :
    readRow w (fillRows buf rows f) i = if i ∈ rows then f i else readRow w buf i := by
  induction rows using List.reverseRecOn with
  | nil => rfl
  | append_singleton rows j ih =>
    have hlast : fillRows buf (rows ++ [j]) f = writeRow (fillRows buf rows f) j (f j) := by
      rw [fillRows, List.foldl_append]
      rfl
    rw [hlast]
    by_cases hi : i = j
    · subst hi
      rw [readRow_writeRow_self, if_pos (by simp)]
    · rw [readRow_writeRow_of_ne hi, ih]
      simp [hi]

/-- The loop depends on what it writes. -/
lemma fillRows_congr (buf : ℕ → V) {rows : List ℕ} (h : ∀ i ∈ rows, f i = g i) :
    fillRows buf rows f = fillRows buf rows g :=
  List.foldl_ext _ _ buf fun buf i hi => congrArg (writeRow buf i) (h i hi)

end RowBuffers
