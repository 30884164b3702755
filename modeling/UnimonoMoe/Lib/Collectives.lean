import Mathlib.Data.Finset.Basic
import Mathlib.Data.Fintype.EquivFin
import Mathlib.Logic.Relation

/-!
# Programs with collectives

The ranks of a distributed program run the same code on their own data and meet in collectives.
`Prog` is the program of one rank: it returns, raises, or enters a collective and continues with
what it gets back.  A collective completes for a group of ranks as soon as every rank of the group
has entered it (`Step`); ranks of other groups do not matter, and a group with a rank that never
enters is stuck.

Whatever the order in which groups complete, the ranks return the same values
(`Returns.unique`).  `Returns.bind` composes runs sequentially.
-/

namespace Collectives

/-- The collectives that the ranks `ι` share: what a rank puts in, what it gets back, and which
ranks meet. -/
structure Network (ι : Type*) where
  Op : Type
  In : Op → Type
  Out : Op → Type
  /-- The ranks that a rank meets in a collective. -/
  group : Op → ι → Finset ι
  result : (op : Op) → (ι → In op) → ι → Out op
  group_symm : ∀ {op : Op} {r i : ι}, i ∈ group op r → r ∈ group op i
  result_congr : ∀ {op : Op} {r : ι} {x y : ι → In op},
    (∀ i ∈ group op r, x i = y i) → result op x r = result op y r

variable {ι : Type*} {C : Network ι} {ε α β : Type}

/-- The program of a rank. -/
inductive Prog (C : Network ι) (ε α : Type)
  | ret (a : α)
  | raise (e : ε)
  | enter (op : C.Op) (x : C.In op) (k : C.Out op → Prog C ε α)

namespace Prog

/-- Sequential composition. -/
def bind (p : Prog C ε α) (f : α → Prog C ε β) : Prog C ε β :=
  match p with
  | ret a => f a
  | raise e => raise e
  | enter op x k => enter op x fun y => (k y).bind f

instance : Monad (Prog C ε) where
  pure := ret
  bind := bind

/-- A value is handed on. -/
@[simp] lemma ret_bind (a : α) (f : α → Prog C ε β) : ret a >>= f = f a := rfl

/-- An exception ends the program. -/
@[simp] lemma raise_bind (e : ε) (f : α → Prog C ε β) :
    (raise e : Prog C ε α) >>= f = raise e := rfl

/-- What follows a program follows it behind its collectives. -/
@[simp] lemma enter_bind (op : C.Op) (x : C.In op) (k : C.Out op → Prog C ε α)
    (f : α → Prog C ε β) : enter op x k >>= f = enter op x fun y => k y >>= f := rfl

/-- Sequential composition is associative. -/
lemma bind_assoc (p : Prog C ε α) (f : α → Prog C ε β) {γ : Type} (g : β → Prog C ε γ) :
    p >>= f >>= g = p >>= fun a => f a >>= g := by
  induction p with
  | ret a => rfl
  | raise e => rfl
  | enter op x k ih => exact congrArg (enter op x) (funext ih)

end Prog

/-! ## Runs -/

/-- The ranks `s`, a union of groups, complete a collective. -/
inductive Step (p p' : ι → Prog C ε α) : Prop
  | intro (s : Set ι) (op : C.Op) (x : ι → C.In op) (k : ι → C.Out op → Prog C ε α)
      (closed : ∀ r ∈ s, ∀ i ∈ C.group op r, i ∈ s)
      (entered : ∀ r ∈ s, p r = .enter op (x r) (k r))
      (left : ∀ r ∈ s, p' r = k r (C.result op x r))
      (rest : ∀ r ∉ s, p' r = p r)

/-- The ranks run to the end and return the values `a`. -/
def Returns (p : ι → Prog C ε α) (a : ι → α) : Prop :=
  Relation.ReflTransGen Step p fun r => .ret (a r)

section Runs

variable {p p' q : ι → Prog C ε α} {a b : ι → α} {r : ι}

/-- Two completions from one state lead to a common state. -/
lemma Step.diamond (h : Step p p') (h' : Step p q) : ∃ d, Step p' d ∧ Step q d := by
  classical
  obtain ⟨s, op, x, k, closed, entered, left, rest⟩ := h
  obtain ⟨t, op', x', k', closed', entered', left', rest'⟩ := h'
  -- a rank in both has entered one collective
  have hop : ∀ r ∈ s, r ∈ t → op = op' := by
    intro r hs ht
    have henter := (entered r hs).symm.trans (entered' r ht)
    injection henter
  -- each completion leaves the groups of the other that it has not completed itself
  have hclosed : ∀ r ∈ t \ s, ∀ i ∈ C.group op' r, i ∈ t \ s := by
    rintro r ⟨ht, hs⟩ i hi
    have hit := closed' r ht i hi
    refine ⟨hit, fun his => hs ?_⟩
    obtain rfl := hop i his hit
    exact closed i his r (C.group_symm hi)
  have hclosed' : ∀ r ∈ s \ t, ∀ i ∈ C.group op r, i ∈ s \ t := by
    rintro r ⟨hs, ht⟩ i hi
    have his := closed r hs i hi
    refine ⟨his, fun hit => ht ?_⟩
    obtain rfl := hop i his hit
    exact closed' i hit r (C.group_symm hi)
  -- where both complete, they agree
  have hboth : ∀ r ∈ s, r ∈ t → k r (C.result op x r) = k' r (C.result op' x' r) := by
    intro r hs ht
    obtain rfl := hop r hs ht
    have hsame : ∀ i ∈ s, i ∈ t → x i = x' i ∧ k i = k' i := by
      intro i his hit
      have henter := (entered i his).symm.trans (entered' i hit)
      injection henter with _ hx hk
      exact ⟨hx, hk⟩
    rw [(hsame r hs ht).2]
    exact congrArg _ (C.result_congr fun i hi => (hsame i (closed r hs i hi) (closed' r ht i hi)).1)
  refine ⟨fun r => if r ∈ s then k r (C.result op x r) else
      if r ∈ t then k' r (C.result op' x' r) else p r,
    ⟨t \ s, op', x', k', hclosed, ?_, ?_, ?_⟩, ⟨s \ t, op, x, k, hclosed', ?_, ?_, ?_⟩⟩
  · rintro r ⟨ht, hs⟩
    rw [rest r hs, entered' r ht]
  · rintro r ⟨ht, hs⟩
    rw [if_neg hs, if_pos ht]
  · intro r hr
    by_cases hs : r ∈ s
    · rw [if_pos hs, left r hs]
    · rw [if_neg hs, if_neg fun ht => hr ⟨ht, hs⟩, rest r hs]
  · rintro r ⟨hs, ht⟩
    rw [rest' r ht, entered r hs]
  · rintro r ⟨hs, _⟩
    rw [if_pos hs]
  · intro r hr
    by_cases hs : r ∈ s
    · have ht : r ∈ t := by_contra fun ht => hr ⟨hs, ht⟩
      rw [if_pos hs, left' r ht, hboth r hs ht]
    · rw [if_neg hs]
      split_ifs with ht
      · rw [left' r ht]
      · rw [rest' r ht]

/-- A rank that has returned stays where it is. -/
lemma Step.eq_of_ret {c : α} (h : Step p p') (hr : p r = .ret c) : p' r = .ret c := by
  obtain ⟨s, op, x, k, _, entered, _, rest⟩ := h
  by_cases hs : r ∈ s
  · rw [entered r hs] at hr
    cases hr
  · rw [rest r hs, hr]

/-- So does a rank that has raised. -/
lemma Step.eq_of_raise {e : ε} (h : Step p p') (hr : p r = .raise e) : p' r = .raise e := by
  obtain ⟨s, op, x, k, _, entered, _, rest⟩ := h
  by_cases hs : r ∈ s
  · rw [entered r hs] at hr
    cases hr
  · rw [rest r hs, hr]

/-- Ranks that have returned stay where they are. -/
lemma eq_of_steps_of_ret (h : Relation.ReflTransGen Step (fun r => .ret (a r)) p) :
    p = fun r => .ret (a r) := by
  induction h with
  | refl => rfl
  | tail _ hstep ih =>
    subst ih
    exact funext fun r => hstep.eq_of_ret rfl

/-- Whatever the ranks have done so far, they return what they return. -/
theorem Returns.of_steps (h : Returns p a) (hq : Relation.ReflTransGen Step p q) : Returns q a := by
  obtain ⟨d, hqd, had⟩ := Relation.church_rosser (fun _ _ _ h h' =>
    let ⟨d, hd, hd'⟩ := h.diamond h'
    ⟨d, .single hd, .single hd'⟩) hq h
  obtain rfl := eq_of_steps_of_ret had
  exact hqd

/-- The ranks return the same values in every order of completion. -/
theorem Returns.unique (ha : Returns p a) (hb : Returns p b) : a = b := by
  have heq := eq_of_steps_of_ret (hb.of_steps ha)
  funext r
  exact (Prog.ret.inj (congrFun heq r)).symm

/-- A rank that raises does not return. -/
lemma Returns.ne_raise (h : Returns p a) (e : ε) : p r ≠ .raise e := by
  intro hr
  unfold Returns at h
  have hstay : ∀ {d : ι → Prog C ε α}, Relation.ReflTransGen Step p d → d r = .raise e := by
    intro d hd
    induction hd with
    | refl => exact hr
    | tail _ hstep ih => exact hstep.eq_of_raise ih
  cases hstay h

/-- All ranks return. -/
lemma Returns.ret (h : ∀ r, p r = .ret (a r)) : Returns p a := by
  rw [show p = fun r => .ret (a r) from funext h]
  exact Relation.ReflTransGen.refl

/-- The values returned, in another form. -/
lemma Returns.congr (h : Returns p a) (hab : ∀ r, a r = b r) : Returns p b :=
  funext hab ▸ h

/-- Completing one collective. -/
lemma Returns.step (h : Step p p') (h' : Returns p' a) : Returns p a :=
  Relation.ReflTransGen.head h h'

/-- All ranks enter the same collective. -/
lemma Returns.enter (op : C.Op) (x : ι → C.In op) (k : ι → C.Out op → Prog C ε α)
    (h : ∀ r, p r = .enter op (x r) (k r)) (hk : Returns (fun r => k r (C.result op x r)) a) :
    Returns p a :=
  Returns.step ⟨Set.univ, op, x, k, fun _ _ _ _ => trivial, fun r _ => h r, fun _ _ => rfl,
    fun _ hr => absurd trivial hr⟩ hk

/-- The first part of a sequential composition steps as it does alone. -/
lemma Step.bind {f : ι → α → Prog C ε β} (h : Step p p') :
    Step (fun r => p r >>= f r) fun r => p' r >>= f r := by
  obtain ⟨s, op, x, k, closed, entered, left, rest⟩ := h
  refine ⟨s, op, x, fun r y => k r y >>= f r, closed, ?_, ?_, ?_⟩
  · intro r hr
    rw [entered r hr, Prog.enter_bind]
  · intro r hr
    rw [left r hr]
  · intro r hr
    rw [rest r hr]

/-- The first part runs to its end inside a sequential composition. -/
lemma Returns.lift_bind {f : ι → α → Prog C ε β} (h : Returns p a) :
    Relation.ReflTransGen Step (fun r => p r >>= f r) fun r => f r (a r) :=
  Relation.ReflTransGen.lift (fun p r => p r >>= f r) (fun _ _ hstep => hstep.bind) _ _ h

/-- Running two programs one after the other. -/
theorem Returns.bind {f : ι → α → Prog C ε β} {b : ι → β} (h : Returns p a)
    (h' : Returns (fun r => f r (a r)) b) : Returns (fun r => p r >>= f r) b :=
  h.lift_bind.trans h'

/-- When a rank raises behind a first part that returns, the ranks do not return. -/
lemma Returns.not_of_raise {f : ι → α → Prog C ε β} {b : ι → β} {e : ε} (h : Returns p a)
    (hr : f r (a r) = .raise e) : ¬ Returns (fun r => p r >>= f r) b := by
  intro hb
  have hrest := hb.of_steps (h.lift_bind (f := f))
  exact hrest.ne_raise e hr

/-! ### Ranks on their own -/

/-- A rank that meets nobody in its collectives runs its program to the end and returns `a`. -/
inductive RunsAlone (r : ι) : Prog C ε α → α → Prop
  | ret (a : α) : RunsAlone r (.ret a) a
  | enter {op : C.Op} {x : C.In op} {k : C.Out op → Prog C ε α} {a : α} (y : C.Out op)
      (alone : C.group op r = {r}) (result : ∀ z : ι → C.In op, z r = x → C.result op z r = y)
      (h : RunsAlone r (k y) a) : RunsAlone r (.enter op x k) a

/-- It does so while the others stay where they are. -/
lemma RunsAlone.steps [DecidableEq ι] {q : Prog C ε α} {c : α} (h : RunsAlone r q c) :
    ∀ p : ι → Prog C ε α, p r = q →
      Relation.ReflTransGen Step p (Function.update p r (.ret c)) := by
  induction h with
  | ret a =>
    intro p hp
    rw [← hp, Function.update_eq_self]
  | @enter op x k a y alone result _ ih =>
    intro p hp
    have hstep : Step p (Function.update p r (k y)) := by
      refine ⟨{r}, op, fun _ => x, fun _ => k, ?_, ?_, ?_, ?_⟩
      · rintro i rfl j hj
        rw [alone] at hj
        exact Finset.mem_singleton.mp hj
      · rintro i rfl
        exact hp
      · rintro i rfl
        rw [Function.update_self, result (fun _ => x) rfl]
      · intro i hi
        rw [Function.update_of_ne hi]
    have hrest := ih (Function.update p r (k y)) (Function.update_self ..)
    rw [Function.update_idem] at hrest
    exact Relation.ReflTransGen.head hstep hrest

/-- Ranks that all run on their own return. -/
theorem Returns.of_alone [Finite ι] (h : ∀ r, RunsAlone r (p r) (a r)) : Returns p a := by
  classical
  have := Fintype.ofFinite ι
  have hsome : ∀ s : Finset ι,
      Relation.ReflTransGen Step p fun r => if r ∈ s then .ret (a r) else p r := by
    intro s
    induction s using Finset.induction_on with
    | empty => simpa using Relation.ReflTransGen.refl
    | @insert i s hi ih =>
      have hnext := (h i).steps (fun r => if r ∈ s then .ret (a r) else p r) (if_neg hi)
      have heq : Function.update (fun r => if r ∈ s then .ret (a r) else p r) i (.ret (a i)) =
          fun r => if r ∈ insert i s then .ret (a r) else p r := by
        funext r
        by_cases hr : r = i
        · subst hr
          simp
        · simp [hr]
      rw [heq] at hnext
      exact ih.trans hnext
  simpa [Returns] using hsome Finset.univ

end Runs

end Collectives
