import Mathlib.Data.Fin.Tuple.Basic
import Mathlib.Data.List.FinRange
import Mathlib.Data.Set.Basic
import Mathlib.Logic.Function.Basic
import Mathlib.Logic.Relation

/-!
# Threads on a shared store

A thread reads and writes the cells of a shared store, one at a time, and reports events; it ends
with a value or raises.  `Step` lets any thread take the next step of its program, so a run is an
interleaving of the threads.

`exec` runs a program alone.  When every thread stays within cells of its own, no interleaving
makes a difference: what a thread has reported, what it returns and what it leaves in its cells is
what it would have done alone (`trace_prefix_exec`, `exec_of_ret`, `exec_of_raise`); cells of no
thread keep what they had (`store_of_unowned`).  A thread may also run on alone at any time
(`reach_exec`), so every run can be completed (`exists_ended`).

The same holds within a thread for the items of a loop that have cells of their own: they leave what
each leaves alone (`store_each_of_own`), and they may all be loaded before the first of them is
worked on (`exec_gather_each`).
-/

namespace Threads

/-! ## Programs -/

/-- The program of a thread, over cells `κ` that contain `V`, with exceptions `ε` and events `E`. -/
inductive Prog (κ V ε E α : Type)
  | ret (a : α)
  | raise (e : ε)
  | read (k : κ) (f : V → Prog κ V ε E α)
  | write (k : κ) (v : V) (p : Prog κ V ε E α)
  | emit (e : E) (p : Prog κ V ε E α)

variable {κ V ε E α β τ : Type}

namespace Prog

/-- Sequential composition. -/
def bind (p : Prog κ V ε E α) (f : α → Prog κ V ε E β) : Prog κ V ε E β :=
  match p with
  | ret a => f a
  | raise e => raise e
  | read k g => read k fun v => (g v).bind f
  | write k v p => write k v (p.bind f)
  | emit e p => emit e (p.bind f)

instance : Monad (Prog κ V ε E) where
  pure := ret
  bind := bind

/-- Sequential composition is associative. -/
lemma bind_bind {γ : Type} (p : Prog κ V ε E α) (f : α → Prog κ V ε E β)
    (g : β → Prog κ V ε E γ) : (p >>= f) >>= g = p >>= fun a => f a >>= g := by
  induction p with
  | ret a => rfl
  | raise e => rfl
  | read k h ih => exact congrArg (read k) (funext ih)
  | write k v p ih => exact congrArg (write k v) ih
  | emit e p ih => exact congrArg (emit e) ih

/-- The value of a cell. -/
def get (k : κ) : Prog κ V ε E V := read k ret

/-- A new value for a cell. -/
def set (k : κ) (v : V) : Prog κ V ε E Unit := write k v (ret ())

/-- An event. -/
def report (e : E) : Prog κ V ε E Unit := emit e (ret ())

/-- One program after the other. -/
def each (f : β → Prog κ V ε E Unit) : List β → Prog κ V ε E Unit
  | [] => ret ()
  | i :: l => do
    f i
    each f l

/-- The values of `n` programs that run one after the other. -/
def gather : (n : ℕ) → (Fin n → Prog κ V ε E β) → Prog κ V ε E (Fin n → β)
  | 0, _ => ret Fin.elim0
  | n + 1, f => do
    let b ← f 0
    let bs ← gather n fun i => f i.succ
    return Fin.cons b bs

/-- A loop over an image is a loop with the function put into its body. -/
lemma each_map (f : β → Prog κ V ε E Unit) (g : α → β) (l : List α) :
    each f (l.map g) = each (fun i => f (g i)) l := by
  induction l with
  | nil => rfl
  | cons i l ih => rw [List.map_cons, each, each, ih]

/-- The program touches no cell outside `S`. -/
def Within (S : Set κ) : Prog κ V ε E α → Prop
  | ret _ => True
  | raise _ => True
  | read k f => k ∈ S ∧ ∀ v, (f v).Within S
  | write k _ p => k ∈ S ∧ p.Within S
  | emit _ p => p.Within S

variable {S : Set κ}

/-- What stays within the cells does so one after the other. -/
lemma Within.bind {p : Prog κ V ε E α} {f : α → Prog κ V ε E β} (hp : p.Within S)
    (hf : ∀ a, (f a).Within S) : (p >>= f).Within S := by
  induction p with
  | ret a => exact hf a
  | raise e => trivial
  | read k g ih => exact ⟨hp.1, fun v => ih v (hp.2 v)⟩
  | write k v p ih => exact ⟨hp.1, ih hp.2⟩
  | emit e p ih => exact ih hp

/-- A load of one of the cells. -/
lemma within_get {k : κ} (hk : k ∈ S) : (get k : Prog κ V ε E V).Within S := ⟨hk, fun _ => trivial⟩

/-- A store to one of the cells. -/
lemma within_set {k : κ} (hk : k ∈ S) (v : V) : (set k v : Prog κ V ε E Unit).Within S :=
  ⟨hk, trivial⟩

/-- A report touches no cell. -/
lemma within_report (e : E) : (report e : Prog κ V ε E Unit).Within S := trivial

/-- A program stays within any larger set of cells. -/
lemma Within.mono {S' : Set κ} (h : ∀ k ∈ S, k ∈ S') {p : Prog κ V ε E α} (hp : p.Within S) :
    p.Within S' := by
  induction p with
  | ret a => trivial
  | raise e => trivial
  | read k f ih => exact ⟨h k hp.1, fun v => ih v (hp.2 v)⟩
  | write k v p ih => exact ⟨h k hp.1, ih hp.2⟩
  | emit e p ih => exact ih hp

/-- A loop stays within the cells when every item does. -/
lemma within_each {f : β → Prog κ V ε E Unit} {l : List β} (h : ∀ i ∈ l, (f i).Within S) :
    (each f l).Within S := by
  induction l with
  | nil => trivial
  | cons i l ih =>
    have hrest : (each f l).Within S := ih fun j hj => h j (List.mem_cons_of_mem i hj)
    exact (h i List.mem_cons_self).bind fun _ => hrest

/-- So do the loads of a family. -/
lemma within_gather {n : ℕ} {f : Fin n → Prog κ V ε E β} (h : ∀ i, (f i).Within S) :
    (gather n f).Within S := by
  induction n with
  | zero => trivial
  | succ n ih =>
    have hrest : (gather n fun i => f i.succ).Within S := ih fun i => h i.succ
    exact (h 0).bind fun _ => hrest.bind fun _ => trivial

/-- A conditional stays within the cells when both branches do. -/
lemma within_ite {p q : Prog κ V ε E α} {c : Prop} [Decidable c] (hp : p.Within S)
    (hq : q.Within S) : (if c then p else q).Within S := by
  split_ifs
  · exact hp
  · exact hq

/-- The program reads no cell outside `R` and writes no cell outside `W`. -/
def Touches (R W : Set κ) : Prog κ V ε E α → Prop
  | ret _ => True
  | raise _ => True
  | read k f => k ∈ R ∧ ∀ v, (f v).Touches R W
  | write k _ p => k ∈ W ∧ p.Touches R W
  | emit _ p => p.Touches R W

variable {R W : Set κ}

/-- Cells that may be read or written are cells that may be touched. -/
lemma Touches.within {p : Prog κ V ε E α} (hp : p.Touches R W) (hR : ∀ k ∈ R, k ∈ S)
    (hW : ∀ k ∈ W, k ∈ S) : p.Within S := by
  induction p with
  | ret a => trivial
  | raise e => trivial
  | read k f ih => exact ⟨hR k hp.1, fun v => ih v (hp.2 v)⟩
  | write k v p ih => exact ⟨hW k hp.1, ih hp.2⟩
  | emit e p ih => exact ih hp

/-- Footprints are kept by sequential composition. -/
lemma Touches.bind {p : Prog κ V ε E α} {f : α → Prog κ V ε E β} (hp : p.Touches R W)
    (hf : ∀ a, (f a).Touches R W) : (p >>= f).Touches R W := by
  induction p with
  | ret a => exact hf a
  | raise e => trivial
  | read k g ih => exact ⟨hp.1, fun v => ih v (hp.2 v)⟩
  | write k v p ih => exact ⟨hp.1, ih hp.2⟩
  | emit e p ih => exact ih hp

/-- A load of a cell that may be read. -/
lemma touches_get {k : κ} (hk : k ∈ R) : (get k : Prog κ V ε E V).Touches R W :=
  ⟨hk, fun _ => trivial⟩

/-- A store to a cell that may be written. -/
lemma touches_set {k : κ} (hk : k ∈ W) (v : V) : (set k v : Prog κ V ε E Unit).Touches R W :=
  ⟨hk, trivial⟩

/-- The footprint of a loop is that of its items. -/
lemma touches_each {f : β → Prog κ V ε E Unit} (h : ∀ i, (f i).Touches R W) (l : List β) :
    (each f l).Touches R W := by
  induction l with
  | nil => trivial
  | cons i l ih => exact (h i).bind fun _ => ih

/-- The footprint of a family of loads is that of its members. -/
lemma touches_gather {n : ℕ} {f : Fin n → Prog κ V ε E β} (h : ∀ i, (f i).Touches R W) :
    (gather n f).Touches R W := by
  induction n with
  | zero => trivial
  | succ n ih =>
    have hrest : (gather n fun i => f i.succ).Touches R W := ih fun i => h i.succ
    exact (h 0).bind fun _ => hrest.bind fun _ => trivial

end Prog

/-! ## A thread alone -/

/-- How a program ends, what it leaves in the store and what it has reported. -/
@[ext]
structure Outcome (κ V ε E α : Type) where
  result : Except ε α
  store : κ → V
  events : List E

/-- The same outcome after some events. -/
def Outcome.after (o : Outcome κ V ε E α) (es : List E) : Outcome κ V ε E α :=
  { o with events := es ++ o.events }

/-- What follows a program that ends with this outcome. -/
def Outcome.andThen (o : Outcome κ V ε E α) (f : α → (κ → V) → Outcome κ V ε E β) :
    Outcome κ V ε E β :=
  match o.result with
  | .ok a => (f a o.store).after o.events
  | .error e => ⟨.error e, o.store, o.events⟩

/-- After a value the program goes on with it. -/
@[simp] lemma Outcome.andThen_ok (a : α) (m : κ → V) (es : List E)
    (f : α → (κ → V) → Outcome κ V ε E β) :
    Outcome.andThen ⟨.ok a, m, es⟩ f = (f a m).after es := rfl

/-- After an exception nothing follows. -/
@[simp] lemma Outcome.andThen_error (e : ε) (m : κ → V) (es : List E)
    (f : α → (κ → V) → Outcome κ V ε E β) :
    Outcome.andThen (⟨.error e, m, es⟩ : Outcome κ V ε E α) f = ⟨.error e, m, es⟩ := rfl

/-- Earlier events come in front. -/
@[simp] lemma Outcome.after_mk (r : Except ε α) (m : κ → V) (es es' : List E) :
    Outcome.after ⟨r, m, es⟩ es' = ⟨r, m, es' ++ es⟩ := rfl

/-- Going on is associative. -/
lemma Outcome.andThen_assoc {γ : Type} (o : Outcome κ V ε E α)
    (f : α → (κ → V) → Outcome κ V ε E β) (g : β → (κ → V) → Outcome κ V ε E γ) :
    (o.andThen f).andThen g = o.andThen fun a m => (f a m).andThen g := by
  obtain ⟨result, m, es⟩ := o
  cases result with
  | error e => rfl
  | ok a =>
    rw [Outcome.andThen_ok, Outcome.andThen_ok]
    generalize f a m = o'
    obtain ⟨result', m', es'⟩ := o'
    cases result' with
    | error e => rfl
    | ok b =>
      rw [Outcome.after_mk, Outcome.andThen_ok, Outcome.andThen_ok]
      simp [Outcome.after]

/-- Only the store that the first part leaves matters to what follows. -/
lemma Outcome.andThen_congr {o : Outcome κ V ε E α} {f g : α → (κ → V) → Outcome κ V ε E β}
    (h : ∀ a, f a o.store = g a o.store) : o.andThen f = o.andThen g := by
  obtain ⟨result, m, es⟩ := o
  cases result with
  | error e => rfl
  | ok a => exact congrArg (Outcome.after · es) (h a)

/-- Two outcomes that differ at most in cells outside `S`. -/
structure Outcome.AgreesOn (S : Set κ) (o o' : Outcome κ V ε E α) : Prop where
  result : o.result = o'.result
  store : ∀ k ∈ S, o.store k = o'.store k
  events : o.events = o'.events

section Exec

variable [DecidableEq κ] {S : Set κ}

/-- The program, run alone. -/
def exec : Prog κ V ε E α → (κ → V) → Outcome κ V ε E α
  | .ret a, m => ⟨.ok a, m, []⟩
  | .raise e, m => ⟨.error e, m, []⟩
  | .read k f, m => exec (f (m k)) m
  | .write k v p, m => exec p (Function.update m k v)
  | .emit e p, m => (exec p m).after [e]

/-- A value leaves the store alone. -/
@[simp] lemma exec_ret (a : α) (m : κ → V) :
    exec (.ret a : Prog κ V ε E α) m = ⟨.ok a, m, []⟩ := rfl

/-- An exception leaves the store alone. -/
@[simp] lemma exec_raise (e : ε) (m : κ → V) :
    exec (.raise e : Prog κ V ε E α) m = ⟨.error e, m, []⟩ := rfl

/-- A load returns what is in the cell. -/
@[simp] lemma exec_get (k : κ) (m : κ → V) :
    exec (Prog.get k : Prog κ V ε E V) m = ⟨.ok (m k), m, []⟩ := rfl

/-- A store updates one cell. -/
@[simp] lemma exec_set (k : κ) (v : V) (m : κ → V) :
    exec (Prog.set k v : Prog κ V ε E Unit) m = ⟨.ok (), Function.update m k v, []⟩ := rfl

/-- A report is the one event. -/
@[simp] lemma exec_report (e : E) (m : κ → V) :
    exec (Prog.report e : Prog κ V ε E Unit) m = ⟨.ok (), m, [e]⟩ := rfl

/-- A composition runs its parts one after the other. -/
lemma exec_bind (p : Prog κ V ε E α) (f : α → Prog κ V ε E β) (m : κ → V) :
    exec (p >>= f) m = (exec p m).andThen fun a => exec (f a) := by
  induction p generalizing m with
  | ret a => rfl
  | raise e => rfl
  | read k g ih => exact ih (m k) m
  | write k v p ih => exact ih (Function.update m k v)
  | emit e p ih =>
    have hp : exec (.emit e p >>= f) m = (exec (p >>= f) m).after [e] := rfl
    rw [hp, ih, exec]
    generalize exec p m = o
    obtain ⟨result, store, events⟩ := o
    cases result <;> rfl

/-- A program within `S` does not look at other cells. -/
lemma exec_congr {p : Prog κ V ε E α} (hp : p.Within S) {m m' : κ → V}
    (h : ∀ k ∈ S, m k = m' k) : (exec p m).AgreesOn S (exec p m') := by
  induction p generalizing m m' with
  | ret a => exact ⟨rfl, h, rfl⟩
  | raise e => exact ⟨rfl, h, rfl⟩
  | read k f ih =>
    rw [exec, exec, h k hp.1]
    exact ih (m' k) (hp.2 _) h
  | write k v p ih =>
    refine ih hp.2 fun k' hk' => ?_
    by_cases heq : k' = k
    · rw [heq, Function.update_self, Function.update_self]
    · rw [Function.update_of_ne heq, Function.update_of_ne heq, h k' hk']
  | emit e p ih =>
    obtain ⟨hr, hm, hes⟩ := ih hp h
    exact ⟨hr, hm, congrArg (e :: ·) hes⟩

/-- A program within `S` leaves the other cells alone. -/
lemma exec_store_of_notMem {p : Prog κ V ε E α} (hp : p.Within S) {k : κ} (hk : k ∉ S)
    (m : κ → V) : (exec p m).store k = m k := by
  induction p generalizing m with
  | ret a => rfl
  | raise e => rfl
  | read k' f ih => exact ih (m k') (hp.2 _) m
  | write k' v p ih =>
    have hne : k ≠ k' := fun h => hk (h ▸ hp.1)
    rw [exec, ih hp.2, Function.update_of_ne hne]
  | emit e p ih => exact ih hp m

/-- A loop runs its first item and then the others. -/
lemma exec_each_cons (f : β → Prog κ V ε E Unit) (i : β) (l : List β) (m : κ → V) :
    exec (Prog.each f (i :: l)) m =
      (exec (f i) m).andThen fun _ => exec (Prog.each f l) := exec_bind _ _ m

/-- A sequence may be cut in two. -/
lemma exec_each_append (f : β → Prog κ V ε E Unit) (l l' : List β) (m : κ → V) :
    exec (Prog.each f (l ++ l')) m =
      exec (Prog.each f l >>= fun _ => Prog.each f l') m := by
  induction l generalizing m with
  | nil => rfl
  | cons i l ih =>
    rw [List.cons_append, exec_each_cons, exec_bind, exec_each_cons, Outcome.andThen_assoc]
    congr 1
    funext _ m'
    rw [ih, exec_bind]

/-- A program that returns from every store and reports the same events. -/
def Emits (p : Prog κ V ε E Unit) (es : List E) : Prop :=
  ∀ m, (exec p m).result = .ok () ∧ (exec p m).events = es

/-- A store reports nothing. -/
lemma emits_set (k : κ) (v : V) : Emits (Prog.set k v : Prog κ V ε E Unit) [] :=
  fun _ => ⟨rfl, rfl⟩

/-- A report emits its event. -/
lemma emits_report (e : E) : Emits (Prog.report e : Prog κ V ε E Unit) [e] :=
  fun _ => ⟨rfl, rfl⟩

/-- Behind a program with known events the rest runs on the store that it leaves. -/
lemma Emits.exec_bind {p : Prog κ V ε E Unit} {es : List E} (hp : Emits p es)
    (q : Unit → Prog κ V ε E α) (m : κ → V) :
    exec (p >>= q) m = (exec (q ()) (exec p m).store).after es := by
  rw [Threads.exec_bind, Outcome.andThen, (hp m).1, (hp m).2]

/-- The events of two programs come one after the other. -/
lemma Emits.bind {p q : Prog κ V ε E Unit} {es es' : List E} (hp : Emits p es)
    (hq : Emits q es') : Emits (p >>= fun _ => q) (es ++ es') := by
  intro m
  rw [hp.exec_bind]
  exact ⟨(hq _).1, congrArg (es ++ ·) (hq _).2⟩

/-- The events of a loop are those of its items in order. -/
lemma Emits.each {f : β → Prog κ V ε E Unit} {es : β → List E} (hf : ∀ i, Emits (f i) (es i))
    (l : List β) : Emits (Prog.each f l) (l.flatMap es) := by
  induction l with
  | nil => exact fun _ => ⟨rfl, rfl⟩
  | cons i l ih => exact (hf i).bind ih

/-- A family of values that are read without an effect. -/
lemma exec_gather {n : ℕ} {f : Fin n → Prog κ V ε E β} {m : κ → V} {g : Fin n → β}
    (h : ∀ i, exec (f i) m = ⟨.ok (g i), m, []⟩) :
    exec (Prog.gather n f) m = ⟨.ok g, m, []⟩ := by
  induction n with
  | zero =>
    have hg : g = Fin.elim0 := funext fun i => i.elim0
    rw [hg]
    rfl
  | succ n ih =>
    have hrest := ih (g := fun i => g i.succ) fun i => h i.succ
    have hcons : Fin.cons (g 0) (fun i => g i.succ) = g := Fin.cons_self_tail g
    rw [Prog.gather, exec_bind, h 0, Outcome.andThen_ok, exec_bind, hrest, Outcome.andThen_ok]
    rw [← hcons]
    rfl

end Exec

/-! ## Programs on cells of their own -/

section Own

variable [DecidableEq κ]

/-- Loads may be issued together, before the first of them is used: when each item has cells of its
own, that is the same as one item after the other. -/
theorem exec_gather_each {n : ℕ} {own : Fin n → Set κ} {load : Fin n → Prog κ V ε E β}
    {process : Fin n → β → Prog κ V ε E Unit} {val : Fin n → (κ → V) → β}
    (hload : ∀ i m, exec (load i) m = ⟨.ok (val i m), m, []⟩)
    (hloadOwn : ∀ i, (load i).Within (own i)) (hprocessOwn : ∀ i b, (process i b).Within (own i))
    (hdisj : ∀ i j, i ≠ j → ∀ k ∈ own i, k ∉ own j) (m : κ → V) :
    exec (do
      let bs ← Prog.gather n load
      Prog.each (fun i => process i (bs i)) (List.finRange n)) m =
    exec (Prog.each (fun i => do
      let b ← load i
      process i b) (List.finRange n)) m := by
  have hval : ∀ i m m', (∀ k ∈ own i, m k = m' k) → val i m = val i m' := by
    intro i m m' h
    have hresult := (exec_congr (hloadOwn i) h).result
    rw [hload, hload] at hresult
    exact Except.ok.inj hresult
  have hgather : exec (Prog.gather n load) m = ⟨.ok fun i => val i m, m, []⟩ :=
    exec_gather fun i => hload i m
  -- the store may change under way, but not in the cells of the items to come
  have hitems : ∀ (l : List (Fin n)), l.Nodup → ∀ m' : κ → V,
      (∀ i ∈ l, ∀ k ∈ own i, m' k = m k) →
      exec (Prog.each (fun i => process i (val i m)) l) m' =
        exec (Prog.each (fun i => load i >>= process i) l) m' := by
    intro l
    induction l with
    | nil => exact fun _ _ _ => rfl
    | cons i l ih =>
      intro hl m' hm'
      obtain ⟨hi, hl⟩ := List.nodup_cons.mp hl
      have hhead : exec (load i >>= process i) m' = exec (process i (val i m)) m' := by
        rw [exec_bind, hload, Outcome.andThen_ok,
          hval i m' m (hm' i List.mem_cons_self)]
        rfl
      rw [exec_each_cons, exec_each_cons, hhead]
      refine Outcome.andThen_congr fun _ => ih hl _ fun j hj k hk => ?_
      have hne : j ≠ i := fun h => hi (h ▸ hj)
      rw [exec_store_of_notMem (hprocessOwn i _) (hdisj j i hne k hk)]
      exact hm' j (List.mem_cons_of_mem i hj) k hk
  rw [exec_bind, hgather, Outcome.andThen_ok]
  exact hitems _ (List.nodup_finRange n) m fun _ _ _ _ => rfl

/-- What items with cells of their own leave there, one after the other, is what each leaves
alone. -/
theorem store_each_of_own {own : β → Set κ} {f : β → Prog κ V ε E Unit} {es : β → List E}
    (hemits : ∀ i, Emits (f i) (es i)) (hwithin : ∀ i, (f i).Within (own i)) {l : List β}
    (hl : l.Nodup) (hdisj : ∀ i ∈ l, ∀ j ∈ l, i ≠ j → ∀ k ∈ own i, k ∉ own j) {i : β} (hi : i ∈ l)
    {k : κ} (hk : k ∈ own i) (m : κ → V) :
    (exec (Prog.each f l) m).store k = (exec (f i) m).store k := by
  induction l generalizing m with
  | nil => exact absurd hi List.not_mem_nil
  | cons j l ih =>
    obtain ⟨hj, hl⟩ := List.nodup_cons.mp hl
    have hcons : (exec (Prog.each f (j :: l)) m).store k =
        (exec (Prog.each f l) (exec (f j) m).store).store k := by
      rw [Prog.each, (hemits j).exec_bind]
      rfl
    rw [hcons]
    rcases List.mem_cons.mp hi with rfl | hil
    · have hout : k ∉ {k' | ∃ j' ∈ l, k' ∈ own j'} := by
        rintro ⟨j', hj', hk'⟩
        have hne : i ≠ j' := fun h => hj (h ▸ hj')
        exact hdisj i hi j' (List.mem_cons_of_mem i hj') hne k hk hk'
      have hrest : (Prog.each f l).Within {k' | ∃ j' ∈ l, k' ∈ own j'} := by
        refine Prog.within_each fun j' hj' => (hwithin j').mono fun k' hk' => ?_
        exact ⟨j', hj', hk'⟩
      exact exec_store_of_notMem hrest hout _
    · have hrest := ih hl (fun i hi j' hj' => hdisj i (List.mem_cons_of_mem j hi) j'
        (List.mem_cons_of_mem j hj')) hil (exec (f j) m).store
      have hne : i ≠ j := fun h => hj (h ▸ hil)
      have halone := exec_congr (hwithin i) fun k' hk' =>
        exec_store_of_notMem (hwithin j) (hdisj i hi j List.mem_cons_self hne k' hk') m
      exact hrest.trans (halone.store k hk)

/-- Stores to different cells. -/
lemma store_each_set {key : β → κ} (hkey : Function.Injective key) (val : β → V) {l : List β}
    (hl : l.Nodup) {i : β} (hi : i ∈ l) (m : κ → V) :
    (exec (Prog.each (fun i => Prog.set (key i) (val i)) l : Prog κ V ε E Unit) m).store (key i) =
      val i := by
  have hown : ∀ i, (Prog.set (key i) (val i) : Prog κ V ε E Unit).Within {key i} :=
    fun i => Prog.within_set (Set.mem_singleton _) _
  have halone := store_each_of_own (fun i => emits_set (key i) (val i)) hown hl
    (fun _ _ _ _ hne _ hk hk' => hne (hkey (hk.symm.trans hk'))) hi (Set.mem_singleton _) m
  exact halone.trans (Function.update_self _ _ _)

end Own

/-! ## Interleaved threads -/

/-- A store, the programs of the threads, and the events so far. -/
structure Config (τ κ V ε E α : Type) where
  store : κ → V
  prog : τ → Prog κ V ε E α
  trace : List (τ × E)

section Runs

variable [DecidableEq τ] [DecidableEq κ]

/-- The events of one thread. -/
def Config.traceOf (c : Config τ κ V ε E α) (t : τ) : List E :=
  (c.trace.filter fun p => p.1 = t).map Prod.snd

/-- Some thread takes a step. -/
inductive Step : Config τ κ V ε E α → Config τ κ V ε E α → Prop
  | read {c : Config τ κ V ε E α} {t : τ} {k : κ} {f : V → Prog κ V ε E α}
      (h : c.prog t = .read k f) :
      Step c { c with prog := Function.update c.prog t (f (c.store k)) }
  | write {c : Config τ κ V ε E α} {t : τ} {k : κ} {v : V} {p : Prog κ V ε E α}
      (h : c.prog t = .write k v p) :
      Step c { c with
        store := Function.update c.store k v
        prog := Function.update c.prog t p }
  | emit {c : Config τ κ V ε E α} {t : τ} {e : E} {p : Prog κ V ε E α}
      (h : c.prog t = .emit e p) :
      Step c { c with
        prog := Function.update c.prog t p
        trace := c.trace ++ [(t, e)] }

/-- A program with nothing left to do. -/
def Prog.ended : Except ε α → Prog κ V ε E α
  | .ok a => .ret a
  | .error e => .raise e

/-- A thread may run on alone, to the end of its program. -/
theorem reach_exec (c : Config τ κ V ε E α) (t : τ) :
    Relation.ReflTransGen Step c
      ⟨(exec (c.prog t) c.store).store,
        Function.update c.prog t (.ended (exec (c.prog t) c.store).result),
        c.trace ++ (exec (c.prog t) c.store).events.map (Prod.mk t)⟩ := by
  generalize hp : c.prog t = p
  induction p generalizing c with
  | ret a =>
    rw [exec_ret, Prog.ended, ← hp, Function.update_eq_self, List.map_nil, List.append_nil]
  | raise e =>
    rw [exec_raise, Prog.ended, ← hp, Function.update_eq_self, List.map_nil, List.append_nil]
  | read k f ih =>
    refine Relation.ReflTransGen.head (Step.read hp) ?_
    have hrest := ih (c.store k) { c with prog := Function.update c.prog t (f (c.store k)) }
      (Function.update_self _ _ _)
    simp only [Function.update_idem] at hrest
    exact hrest
  | write k v p ih =>
    refine Relation.ReflTransGen.head (Step.write hp) ?_
    have hrest := ih { c with
      store := Function.update c.store k v
      prog := Function.update c.prog t p } (Function.update_self _ _ _)
    simp only [Function.update_idem] at hrest
    exact hrest
  | emit e p ih =>
    refine Relation.ReflTransGen.head (Step.emit hp) ?_
    have hrest := ih { c with
      prog := Function.update c.prog t p
      trace := c.trace ++ [(t, e)] } (Function.update_self _ _ _)
    simp only [Function.update_idem, List.append_assoc] at hrest
    exact hrest

/-- The threads stay within cells of their own. -/
structure Confined (own : τ → Set κ) (prog : τ → Prog κ V ε E α) : Prop where
  within : ∀ t, (prog t).Within (own t)
  disjoint : ∀ t t', t ≠ t' → ∀ k ∈ own t, k ∉ own t'

variable {own : τ → Set κ} {c₀ c c' : Config τ κ V ε E α} {t : τ}

/-- What thread `t` still has to do, after what it has done, is what it had to do at first. -/
structure OnTrack (own : τ → Set κ) (c₀ c : Config τ κ V ε E α) (t : τ) : Prop where
  within : (c.prog t).Within (own t)
  agrees : ((exec (c.prog t) c.store).after (c.traceOf t)).AgreesOn (own t)
    (exec (c₀.prog t) c₀.store)

/-- A thread is not affected by what others write to other cells. -/
lemma OnTrack.of_same (h : OnTrack own c₀ c t) (hprog : c'.prog t = c.prog t)
    (htrace : c'.traceOf t = c.traceOf t) (hstore : ∀ k ∈ own t, c'.store k = c.store k) :
    OnTrack own c₀ c' t := by
  refine ⟨hprog ▸ h.within, ?_⟩
  obtain ⟨hr, hm, hes⟩ := exec_congr h.within hstore
  rw [hprog, htrace]
  exact ⟨hr.trans h.agrees.result, fun k hk => (hm k hk).trans (h.agrees.store k hk),
    (congrArg (c.traceOf t ++ ·) hes).trans h.agrees.events⟩

/-- A step keeps every thread on track. -/
lemma OnTrack.step (hdisj : ∀ t t', t ≠ t' → ∀ k ∈ own t, k ∉ own t') (hstep : Step c c')
    (h : ∀ t, OnTrack own c₀ c t) (t : τ) : OnTrack own c₀ c' t := by
  cases hstep with
  | @read s k f hs =>
    by_cases ht : t = s
    · subst ht
      obtain ⟨hwithin, hagrees⟩ := h t
      rw [hs] at hwithin hagrees
      refine ⟨?_, ?_⟩
      · simp only [Function.update_self]
        exact hwithin.2 (c.store k)
      · simp only [Function.update_self]
        exact hagrees
    · exact (h t).of_same (Function.update_of_ne ht _ _) rfl fun _ _ => rfl
  | @write s k v p hs =>
    by_cases ht : t = s
    · subst ht
      obtain ⟨hwithin, hagrees⟩ := h t
      rw [hs] at hwithin hagrees
      refine ⟨?_, ?_⟩
      · simp only [Function.update_self]
        exact hwithin.2
      · simp only [Function.update_self]
        exact hagrees
    · have hk : k ∈ own s := by
        have hwithin := (h s).within
        rw [hs] at hwithin
        exact hwithin.1
      refine (h t).of_same (Function.update_of_ne ht _ _) rfl fun k' hk' => ?_
      refine Function.update_of_ne ?_ _ _
      rintro rfl
      exact hdisj t s ht k' hk' hk
  | @emit s e p hs =>
    by_cases ht : t = s
    · subst ht
      obtain ⟨hwithin, hagrees⟩ := h t
      rw [hs] at hwithin hagrees
      refine ⟨?_, ?_⟩
      · simp only [Function.update_self]
        exact hwithin
      · have htrace : ((c.trace ++ [(t, e)]).filter fun p => p.1 = t).map Prod.snd =
            c.traceOf t ++ [e] := by
          simp [Config.traceOf, List.filter_append]
        simp only [Function.update_self, Config.traceOf, htrace]
        refine ⟨hagrees.result, hagrees.store, ?_⟩
        rw [← hagrees.events]
        exact List.append_assoc _ _ _
    · refine (h t).of_same (Function.update_of_ne ht _ _) ?_ fun _ _ => rfl
      simp [Config.traceOf, List.filter_append, Ne.symm ht]

/-- Along a run every thread stays on track. -/
theorem OnTrack.of_reachable (hconfined : Confined own c₀.prog) (htrace : c₀.trace = [])
    (h : Relation.ReflTransGen Step c₀ c) (t : τ) : OnTrack own c₀ c t := by
  induction h generalizing t with
  | refl =>
    refine ⟨hconfined.within t, rfl, fun _ _ => rfl, ?_⟩
    simp [Outcome.after, Config.traceOf, htrace]
  | tail _ hstep ih => exact OnTrack.step hconfined.disjoint hstep ih t

/-- What a thread has reported is the beginning of what it reports alone. -/
theorem trace_prefix_exec (hconfined : Confined own c₀.prog) (htrace : c₀.trace = [])
    (h : Relation.ReflTransGen Step c₀ c) (t : τ) :
    c.traceOf t <+: (exec (c₀.prog t) c₀.store).events :=
  ⟨_, (OnTrack.of_reachable hconfined htrace h t).agrees.events⟩

/-- A thread that has returned has done what it does alone. -/
theorem exec_of_ret (hconfined : Confined own c₀.prog) (htrace : c₀.trace = [])
    (h : Relation.ReflTransGen Step c₀ c) {a : α} (hret : c.prog t = .ret a) :
    Outcome.AgreesOn (own t) ⟨.ok a, c.store, c.traceOf t⟩ (exec (c₀.prog t) c₀.store) := by
  have hagrees := (OnTrack.of_reachable hconfined htrace h t).agrees
  rw [hret] at hagrees
  refine ⟨hagrees.result, hagrees.store, ?_⟩
  rw [← hagrees.events]
  exact (List.append_nil _).symm

/-- A thread that has raised raises alone. -/
theorem exec_of_raise (hconfined : Confined own c₀.prog) (htrace : c₀.trace = [])
    (h : Relation.ReflTransGen Step c₀ c) {e : ε} (hraise : c.prog t = .raise e) :
    (exec (c₀.prog t) c₀.store).result = .error e := by
  have hagrees := (OnTrack.of_reachable hconfined htrace h t).agrees
  rw [hraise] at hagrees
  exact hagrees.result.symm

/-- Cells that belong to no thread are left alone. -/
theorem store_of_unowned (hconfined : Confined own c₀.prog) (htrace : c₀.trace = [])
    (h : Relation.ReflTransGen Step c₀ c) {k : κ} (hk : ∀ t, k ∉ own t) :
    c.store k = c₀.store k := by
  induction h with
  | refl => rfl
  | @tail c c' hreach hstep ih =>
    rw [← ih]
    cases hstep with
    | read _ => rfl
    | emit _ => rfl
    | @write t k' v p hprog =>
      have hwithin := (OnTrack.of_reachable hconfined htrace hreach t).within
      rw [hprog] at hwithin
      have hne : k ≠ k' := fun heq => hk t (heq ▸ hwithin.1)
      exact Function.update_of_ne hne _ _

/-- The threads of a list may all run to the end of their programs. -/
theorem exists_ended (c : Config τ κ V ε E α) (ts : List τ) :
    ∃ c', Relation.ReflTransGen Step c c' ∧ ∀ t ∈ ts, ∃ r, c'.prog t = .ended r := by
  induction ts with
  | nil => exact ⟨c, .refl, fun _ h => absurd h List.not_mem_nil⟩
  | cons t ts ih =>
    obtain ⟨c', hreach, hended⟩ := ih
    refine ⟨_, hreach.trans (reach_exec c' t), fun s hs => ?_⟩
    by_cases hst : s = t
    · subst hst
      exact ⟨_, Function.update_self _ _ _⟩
    · obtain ⟨r, hr⟩ := hended s ((List.mem_cons.mp hs).resolve_left hst)
      exact ⟨r, (Function.update_of_ne hst _ _).trans hr⟩

omit [DecidableEq κ] in
/-- The events of a run are those of its threads. -/
lemma trace_perm (c : Config τ κ V ε E α) {ts : List τ} (hts : ts.Nodup) (hall : ∀ t, t ∈ ts) :
    (c.trace.map Prod.snd).Perm (ts.flatMap c.traceOf) := by
  have hsplit : ∀ l : List (τ × E), l.Perm (ts.flatMap fun t => l.filter fun p => p.1 = t) := by
    intro l
    induction l with
    | nil => simp
    | cons p l ih =>
      have hcons : ts.Perm (p.1 :: ts.erase p.1) := List.perm_cons_erase (hall p.1)
      have hother : ((ts.erase p.1).flatMap fun t => (p :: l).filter fun q => q.1 = t) =
          (ts.erase p.1).flatMap fun t => l.filter fun q => q.1 = t := by
        refine List.flatMap_congr fun t ht => List.filter_cons_of_neg ?_
        have hne : t ≠ p.1 := (hts.mem_erase_iff.mp ht).1
        simpa using hne.symm
      have hnew : ((p.1 :: ts.erase p.1).flatMap fun t => (p :: l).filter fun q => q.1 = t) =
          p :: (p.1 :: ts.erase p.1).flatMap fun t => l.filter fun q => q.1 = t := by
        rw [List.flatMap_cons, List.flatMap_cons, hother, List.filter_cons_of_pos (by simp)]
        rfl
      refine (ih.cons p).trans (((hcons.flatMap_right _).cons p).trans ?_)
      rw [← hnew]
      exact (hcons.flatMap_right _).symm
  have hmap := (hsplit c.trace).map Prod.snd
  rwa [List.map_flatMap] at hmap

end Runs

end Threads
