import Mathlib.Algebra.Order.Ring.Int
import Mathlib.Data.Nat.Notation
import Mathlib.Tactic.Common

/-!
# Phase barriers with a byte count

A phase barrier lies in memory and is reused without a reset.  Its phase is over once its one
arrival has been made and the bytes that the arrival has announced have come in; then the next
phase begins.  A waiter sees no more of the phase number than its parity: it asks whether the phase
with the parity it holds is over.

`loading k r` is the barrier in phase `k` with `r` of the announced bytes missing.  The lemmas say
how announcements and bytes lead from one such state to the next, and what the parity tells a
waiter.
-/

namespace PhaseBarrier

/-- The number of finished phases, the arrivals and the bytes that the current phase waits for. -/
@[ext]
structure State where
  phase : ℕ
  pending : ℕ
  tx : ℤ
deriving DecidableEq, Repr

/-- A barrier after its initialization. -/
def fresh : State := ⟨0, 1, 0⟩

/-- When nothing is missing the next phase begins. -/
def settle (b : State) : State :=
  if b.pending = 0 ∧ b.tx = 0 then ⟨b.phase + 1, 1, 0⟩ else b

/-- The arrival, which announces some bytes. -/
def arriveExpectTx (b : State) (bytes : ℕ) : State :=
  settle ⟨b.phase, b.pending - 1, b.tx + bytes⟩

/-- One byte comes in. -/
def completeTx (b : State) : State := settle ⟨b.phase, b.pending, b.tx - 1⟩

/-- Whether the phase with the given parity is over. -/
def tryWaitParity (b : State) (parity : ℕ) : Bool := b.phase % 2 ≠ parity

/-- Phase `k` with `r` bytes missing; with none missing it is over. -/
def loading (k r : ℕ) : State := if r = 0 then ⟨k + 1, 1, 0⟩ else ⟨k, 0, r⟩

variable {k r bytes : ℕ}

/-- The first announcement. -/
lemma arriveExpectTx_fresh : arriveExpectTx fresh bytes = loading 0 bytes := by
  unfold arriveExpectTx fresh settle loading
  by_cases h : bytes = 0 <;> simp [h]

/-- An announcement after a finished phase. -/
lemma arriveExpectTx_loading : arriveExpectTx (loading k 0) bytes = loading (k + 1) bytes := by
  unfold arriveExpectTx loading settle
  by_cases h : bytes = 0 <;> simp [h]

/-- A missing byte. -/
lemma completeTx_loading : completeTx (loading k (r + 1)) = loading k r := by
  unfold completeTx loading settle
  by_cases h : r = 0
  · simp [h]
  · simp [h]

/-- The phase number shows whether bytes are missing. -/
lemma loading_phase : (loading k r).phase = if r = 0 then k + 1 else k := by
  unfold loading
  split_ifs <;> rfl

/-- The parity is enough when the barrier is never further than one phase from the waiter. -/
lemma tryWaitParity_iff {b : State} (h : b.phase = k ∨ b.phase = k + 1) :
    tryWaitParity b (k % 2) = true ↔ b.phase = k + 1 := by
  unfold tryWaitParity
  rcases h with h | h
  · simp [h]
  · simp [h]
    omega

end PhaseBarrier
