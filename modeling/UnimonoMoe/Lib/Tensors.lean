import Mathlib.Data.List.GetD
import Mathlib.Data.List.Range
import Mathlib.Data.Nat.Notation
import Mathlib.Logic.Function.Basic

/-!
# Views of a shared memory

Tensors are views: several of them may show the same elements of one storage.  `Memory` holds the
storages; `fill` writes through a view, `alloc` opens a new storage and `copy` converts the elements
of a view into one.  The lemmas say what a view reads afterwards: what was written through it,
or what it read before when its storage is another one.
-/

namespace Tensors

variable {V : Type}

/-- The storages of a process.  Those below `next` are in use. -/
@[ext]
structure Memory (V : Type) where
  cells : ℕ → ℕ → V
  next : ℕ

/-- The places of the elements of a tensor in its storage, in the order of their indices. -/
structure View where
  storage : ℕ
  positions : List ℕ
deriving DecidableEq, Repr

/-- The elements that a view shows. -/
def View.read (v : View) (m : Memory V) : List V := v.positions.map (m.cells v.storage)

/-- The elements lie next to each other, in order. -/
def View.isContiguous (v : View) : Bool :=
  v.positions = List.range' (v.positions.headD 0) v.positions.length

/-- New elements at the places of a view. -/
def Memory.fill (m : Memory V) (v : View) (f : ℕ → V) : Memory V where
  cells := Function.update m.cells v.storage fun p =>
    if p ∈ v.positions then f p else m.cells v.storage p
  next := m.next

/-- A new storage. -/
def Memory.alloc (m : Memory V) (f : ℕ → V) : Memory V where
  cells := Function.update m.cells m.next f
  next := m.next + 1

/-- The elements of a view, converted, in a new storage. -/
def Memory.copy (m : Memory V) (v : View) (g : V → V) : Memory V :=
  m.alloc fun p => g (m.cells v.storage (v.positions.getD p 0))

/-- The view of such a copy. -/
def Memory.copyView (m : Memory V) (v : View) : View := ⟨m.next, List.range v.positions.length⟩

variable {m : Memory V} {v w : View} {f : ℕ → V}

/-- A store allocates nothing. -/
@[simp] lemma next_fill : (m.fill v f).next = m.next := rfl

/-- An allocation takes one storage. -/
@[simp] lemma next_alloc : (m.alloc f).next = m.next + 1 := rfl

/-- So does a copy. -/
@[simp] lemma next_copy (g : V → V) : (m.copy v g).next = m.next + 1 := rfl

/-- A view shows what was written through it. -/
lemma read_fill_self : v.read (m.fill v f) = v.positions.map f := by
  refine List.map_congr_left fun p hp => ?_
  simp only [Memory.fill, Function.update_self, if_pos hp]

/-- Writing to one storage leaves the others alone. -/
lemma read_fill_of_ne (h : v.storage ≠ w.storage) : v.read (m.fill w f) = v.read m := by
  simp only [View.read, Memory.fill, Function.update_of_ne h]

/-- A new storage changes none that is in use. -/
lemma read_alloc (h : v.storage < m.next) : v.read (m.alloc f) = v.read m := by
  simp only [View.read, Memory.alloc, Function.update_of_ne h.ne]

/-- A view of a new storage. -/
lemma read_alloc_self (positions : List ℕ) :
    View.read ⟨m.next, positions⟩ (m.alloc f) = positions.map f := by
  simp only [View.read, Memory.alloc, Function.update_self]

/-- A copy changes no storage that is in use. -/
lemma read_copy (h : v.storage < m.next) (g : V → V) : v.read (m.copy w g) = v.read m :=
  read_alloc h

/-- A copy holds the converted elements. -/
lemma read_copyView (g : V → V) : (m.copyView v).read (m.copy v g) = (v.read m).map g := by
  unfold Memory.copyView Memory.copy
  rw [read_alloc_self, View.read, List.map_map]
  refine List.ext_getElem (by simp) fun i hi hi' => ?_
  simp only [List.length_map, List.length_range] at hi
  simp [hi]

end Tensors
