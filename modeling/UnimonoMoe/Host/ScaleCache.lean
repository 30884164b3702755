import UnimonoMoe.Host.Gate
import UnimonoMoe.Lib.Tensors

/-!
# The cached scales of the fused path

The fused path converts the scale parameters of a layer to contiguous fp32 once and keeps the result
on the layer; the ordinary path converts them on every call.  `scalesF32c` is the cache, `reload`
what loading does to a parameter: the weight loaders may write into its memory, and
`replace_parameter` binds its name to a tensor in that memory or in memory of its own.

A cached tensor either shares the memory of the parameter or is a copy.
`scales_coherent_iff` says which reloads a cache that has been filled survives.
-/

namespace UnimonoMoe

open Tensors

/-! ## Scale tensors -/

/-- The scale attributes: `w13_{weight_scale_name}` and `w2_{weight_scale_name}`. -/
inductive ScaleAttr
  | w13
  | w2
deriving DecidableEq, Repr

/-- A tensor of scales. -/
structure ScaleTensor where
  view : View
  dtype : Dtype
  shape : List ℕ
  device : ℕ
deriving DecidableEq, Repr

/-- What the names of a layer are bound to.  The cache is `_mk_f32_{attr}`. -/
structure ScaleState (V : Type) where
  memory : Memory V
  param : ScaleAttr → ScaleTensor
  cache : ScaleAttr → Option ScaleTensor

/-- A tensor in a storage of its own. -/
structure FreshTensor (V : Type) where
  dtype : Dtype
  positions : List ℕ
  contents : ℕ → V

/-- What loading or reloading does to a scale parameter. -/
structure Reload (V : Type) where
  /-- the elements that the weight loaders write into the memory of the parameter, by place -/
  loaded : Option (ℕ → V)
  /-- the tensor that `replace_parameter` is called with, absent when it is the parameter itself;
  its shape and device are those of the parameter -/
  replacement : Option (FreshTensor V)

/-- A parameter as `create_weights` registers it. -/
structure CreatedParam (V : Type) where
  tensor : FreshTensor V
  shape : List ℕ
  device : ℕ

/-- An operation on a layer. -/
inductive ScaleOp (V : Type)
  | reload (attr : ScaleAttr) (r : Reload V)
  /-- a launch of the monokernel, on the fused path or on the ordinary one -/
  | launch (fused : Bool)

section Scales

variable {V : Type} (toFloat : Dtype → V → V)

/-- An element in fp32. -/
def asFloat (dtype : Dtype) (v : V) : V := if dtype = .float32 then v else toFloat dtype v

/-- The fp32 values of a tensor. -/
def ScaleTensor.values (t : ScaleTensor) (m : Memory V) : List V :=
  (t.view.read m).map (asFloat toFloat t.dtype)

/-- `t.float().contiguous()`, which is `t` itself when there is nothing to convert. -/
def ScaleTensor.floatContiguous (t : ScaleTensor) (m : Memory V) : ScaleTensor × Memory V :=
  if t.dtype = .float32 ∧ t.view.isContiguous then (t, m)
  else ({ t with view := m.copyView t.view, dtype := .float32 },
    m.copy t.view (asFloat toFloat t.dtype))

namespace ScaleState

/-- The fp32 values of a scale parameter. -/
def scales (s : ScaleState V) (a : ScaleAttr) : List V := (s.param a).values toFloat s.memory

/-- A layer after `create_weights`. -/
def created (p : ScaleAttr → CreatedParam V) : ScaleState V where
  memory := ⟨fun storage => if storage = 0 then (p .w13).tensor.contents
    else (p .w2).tensor.contents, 2⟩
  param a := {
    view := ⟨match a with | .w13 => 0 | .w2 => 1, (p a).tensor.positions⟩
    dtype := (p a).tensor.dtype
    shape := (p a).shape
    device := (p a).device }
  cache _ := none

/-- A conversion that nothing remembers. -/
def convert (s : ScaleState V) (a : ScaleAttr) : ScaleTensor × ScaleState V :=
  let (c, m) := (s.param a).floatContiguous toFloat s.memory
  (c, { s with memory := m })

/-- A conversion that the layer remembers. -/
def convertCached (s : ScaleState V) (a : ScaleAttr) : ScaleTensor × ScaleState V :=
  let (c, s') := s.convert toFloat a
  (c, { s' with cache := Function.update s'.cache a (some c) })

/-- `_scales_f32c`. -/
def scalesF32c (s : ScaleState V) (a : ScaleAttr) : ScaleTensor × ScaleState V :=
  match s.cache a with
  | none => s.convertCached toFloat a
  | some c =>
    if c.shape ≠ (s.param a).shape ∨ c.device ≠ (s.param a).device then s.convertCached toFloat a
    else (c, s)

/-- The scales that a launch hands to the kernel, with the state that it leaves. -/
def launchWith (convert : ScaleState V → ScaleAttr → ScaleTensor × ScaleState V)
    (s : ScaleState V) : (ScaleAttr → ScaleTensor) × ScaleState V :=
  let (w13, s₁) := convert s .w13
  let (w2, s₂) := convert s₁ .w2
  (fun | .w13 => w13 | .w2 => w2, s₂)

/-- The launch of `fused_tp_launch`. -/
def fusedTpLaunch (s : ScaleState V) : (ScaleAttr → ScaleTensor) × ScaleState V :=
  launchWith (scalesF32c toFloat) s

/-- The launch of `try_moe_monokernel`, whose operator converts its arguments. -/
def tryMoeMonokernel (s : ScaleState V) : (ScaleAttr → ScaleTensor) × ScaleState V :=
  launchWith (convert toFloat) s

/-- What the kernel reads from a scale argument of a launch. -/
def passed (launch : (ScaleAttr → ScaleTensor) × ScaleState V) (a : ScaleAttr) : List V :=
  (launch.1 a).view.read launch.2.memory

/-- A reload of a scale parameter. -/
def reload (s : ScaleState V) (a : ScaleAttr) (r : Reload V) : ScaleState V :=
  let m :=
    match r.loaded with
    | none => s.memory
    | some f => s.memory.fill (s.param a).view f
  match r.replacement with
  | none => { s with memory := m }
  | some t =>
    { s with
      memory := m.alloc t.contents
      param := Function.update s.param a
        { s.param a with view := ⟨m.next, t.positions⟩, dtype := t.dtype } }

/-- One operation. -/
def step (s : ScaleState V) : ScaleOp V → ScaleState V
  | .reload a r => s.reload a r
  | .launch true => (s.fusedTpLaunch toFloat).2
  | .launch false => (s.tryMoeMonokernel toFloat).2

/-- A sequence of operations. -/
def run (s : ScaleState V) (ops : List (ScaleOp V)) : ScaleState V := ops.foldl (step toFloat) s

/-- A fused launch in this state hands the kernel the fp32 values of the scale parameters, as a
launch on the ordinary path does. -/
def Coherent (s : ScaleState V) : Prop :=
  ∀ a, passed (s.fusedTpLaunch toFloat) a = s.scales toFloat a ∧
    passed (s.fusedTpLaunch toFloat) a = passed (s.tryMoeMonokernel toFloat) a

end ScaleState

namespace Reload

/-- The fp32 values in the memory of the parameter once the weight loaders are through. -/
def loadedScales (r : Reload V) (s : ScaleState V) (a : ScaleAttr) : List V :=
  match r.loaded with
  | none => s.scales toFloat a
  | some f => (s.param a).view.positions.map fun p => asFloat toFloat (s.param a).dtype (f p)

/-- The fp32 values that a reload installs. -/
def newScales (r : Reload V) (s : ScaleState V) (a : ScaleAttr) : List V :=
  match r.replacement with
  | none => r.loadedScales toFloat s a
  | some t => t.positions.map fun p => asFloat toFloat t.dtype (t.contents p)

/-- A reload that a cache survives.  Before the first fused launch there is none.  A cached tensor
in the memory of the parameter follows what is written there, so the reload is to install just that;
a cached copy stays what it is, so the reload is to leave the values as they were. -/
def Harmless (r : Reload V) (s : ScaleState V) (a : ScaleAttr) : Prop :=
  ∀ c, s.cache a = some c → r.newScales toFloat s a =
    if c.view.storage = (s.param a).view.storage then r.loadedScales toFloat s a
    else s.scales toFloat a

end Reload

end Scales

/-! ## Conversions -/

section Conversions

variable {V : Type} {toFloat : Dtype → V → V} {s s' : ScaleState V} {t : ScaleTensor}
  {m : Memory V} {a b : ScaleAttr}

/-- A scale of the type already is left alone. -/
@[simp] lemma asFloat_float32 : asFloat toFloat .float32 = id := by
  funext v
  simp [asFloat]

/-- An fp32 tensor shows its values. -/
lemma ScaleTensor.values_of_float32 (h : t.dtype = .float32) :
    t.values toFloat m = t.view.read m := by
  rw [ScaleTensor.values, h, asFloat_float32, List.map_id]

/-- A conversion changes no tensor that exists. -/
lemma ScaleTensor.read_floatContiguous {v : View} (h : v.storage < m.next) :
    v.read (t.floatContiguous toFloat m).2 = v.read m := by
  unfold ScaleTensor.floatContiguous
  split_ifs
  · rfl
  · exact read_copy h _

/-- A conversion frees no storage. -/
lemma ScaleTensor.next_floatContiguous : m.next ≤ (t.floatContiguous toFloat m).2.next := by
  unfold ScaleTensor.floatContiguous
  split_ifs
  · exact le_refl _
  · exact Nat.le_succ _

/-- What a conversion yields: fp32 values, in the memory of an fp32 tensor or in new memory. -/
structure Converted (toFloat : Dtype → V → V) (t : ScaleTensor) (m : Memory V)
    (c : ScaleTensor) (m' : Memory V) : Prop where
  read : c.view.read m' = t.values toFloat m
  dtype : c.dtype = .float32
  shape : c.shape = t.shape
  device : c.device = t.device
  lt : c.view.storage < m'.next
  shares : c.view = t.view ∧ t.dtype = .float32 ∨ m.next ≤ c.view.storage

/-- A conversion holds the converted values, in storage of its own or in that of the scale. -/
lemma ScaleTensor.converted (toFloat : Dtype → V → V) (h : t.view.storage < m.next) :
    Converted toFloat t m (t.floatContiguous toFloat m).1 (t.floatContiguous toFloat m).2 := by
  unfold ScaleTensor.floatContiguous
  split_ifs with hself
  · exact ⟨(t.values_of_float32 hself.1).symm, hself.1, rfl, rfl, h, Or.inl ⟨rfl, hself.1⟩⟩
  · exact ⟨read_copyView _, rfl, rfl, rfl, Nat.lt_succ_self _, Or.inr (le_refl _)⟩

namespace ScaleState

/-- The tensors of a layer are in use, and those of one attribute share no memory with those of the
other.  A cached tensor fits the parameter, and where it lies in its memory it shows all of it. -/
structure Wf (s : ScaleState V) : Prop where
  param_lt : ∀ a, (s.param a).view.storage < s.memory.next
  param_ne : ∀ a b, a ≠ b → (s.param a).view.storage ≠ (s.param b).view.storage
  cache_lt : ∀ a c, s.cache a = some c → c.view.storage < s.memory.next
  cache_ne : ∀ a b c, a ≠ b → s.cache a = some c → c.view.storage ≠ (s.param b).view.storage
  cache_fits : ∀ a c, s.cache a = some c →
    c.dtype = .float32 ∧ c.shape = (s.param a).shape ∧ c.device = (s.param a).device
  cache_shares : ∀ a c, s.cache a = some c → c.view.storage = (s.param a).view.storage →
    c.view = (s.param a).view ∧ (s.param a).dtype = .float32

/-- A layer that has just been created is well formed. -/
lemma wf_created (p : ScaleAttr → CreatedParam V) : (created p).Wf := by
  refine ⟨fun a => ?_, fun a b hne => ?_, ?_, ?_, ?_, ?_⟩
  · cases a <;> simp [created]
  · cases a <;> cases b <;> simp [created] at hne ⊢
  all_goals
    intros
    contradiction

/-- What a launch may do to a layer: parameters and existing tensors stay as they are. -/
structure Keeps (s s' : ScaleState V) : Prop where
  param : s'.param = s.param
  next : s.memory.next ≤ s'.memory.next
  read : ∀ v : View, v.storage < s.memory.next → v.read s'.memory = v.read s.memory

/-- What two steps keep is kept by both together. -/
lemma Keeps.trans {s'' : ScaleState V} (h : s.Keeps s') (h' : s'.Keeps s'') : s.Keeps s'' :=
  ⟨h'.param.trans h.param, h.next.trans h'.next, fun v hv =>
    (h'.read v (hv.trans_le h.next)).trans (h.read v hv)⟩

/-- A launch leaves the scales as they are. -/
lemma Keeps.scales (hs : s.Wf) (h : s.Keeps s') (a : ScaleAttr) :
    s'.scales toFloat a = s.scales toFloat a := by
  unfold ScaleState.scales ScaleTensor.values
  rw [h.param, h.read _ (hs.param_lt a)]

/-- A conversion keeps the parameters and their values. -/
lemma keeps_convert (toFloat : Dtype → V → V) (s : ScaleState V) (a : ScaleAttr) :
    s.Keeps (s.convert toFloat a).2 :=
  ⟨rfl, ScaleTensor.next_floatContiguous, fun _ hv => ScaleTensor.read_floatContiguous hv⟩

/-- A step that keeps the parameters and the cache keeps the state well formed. -/
lemma Keeps.wf (hs : s.Wf) (h : s.Keeps s') (hcache : s'.cache = s.cache) : s'.Wf where
  param_lt a := by
    rw [h.param]
    exact (hs.param_lt a).trans_le h.next
  param_ne := h.param ▸ hs.param_ne
  cache_lt a c hc := (hs.cache_lt a c (hcache ▸ hc)).trans_le h.next
  cache_ne a b c hne hc := h.param ▸ hs.cache_ne a b c hne (hcache ▸ hc)
  cache_fits a c hc := h.param ▸ hs.cache_fits a c (hcache ▸ hc)
  cache_shares a c hc := h.param ▸ hs.cache_shares a c (hcache ▸ hc)

/-- What the fused path reads at an attribute: the cached tensor, when there is one. -/
def held (toFloat : Dtype → V → V) (s : ScaleState V) (a : ScaleAttr) : List V :=
  match s.cache a with
  | none => s.scales toFloat a
  | some c => c.view.read s.memory

/-- Without a cached tensor the layer uses the scales. -/
lemma held_of_none (h : s.cache a = none) : s.held toFloat a = s.scales toFloat a := by
  rw [held, h]

/-- With one it uses the cached tensor. -/
lemma held_of_some {c : ScaleTensor} (h : s.cache a = some c) :
    s.held toFloat a = c.view.read s.memory := by
  rw [held, h]

/-- Where the cache is as it was, so is what it holds. -/
lemma Keeps.held (hs : s.Wf) (h : s.Keeps s') (hcache : s'.cache b = s.cache b) :
    s'.held toFloat b = s.held toFloat b := by
  unfold ScaleState.held
  rw [hcache]
  cases hc : s.cache b with
  | none => exact h.scales hs b
  | some c => exact h.read _ (hs.cache_lt b c hc)

/-- What `_scales_f32c` does: it hands out a tensor that shows what is held, remembers it, and
changes nothing else that can be read. -/
structure Served (toFloat : Dtype → V → V) (s : ScaleState V) (a : ScaleAttr)
    (r : ScaleTensor × ScaleState V) : Prop where
  keeps : s.Keeps r.2
  wf : r.2.Wf
  lt : r.1.view.storage < r.2.memory.next
  read : r.1.view.read r.2.memory = s.held toFloat a
  held : ∀ b, r.2.held toFloat b = s.held toFloat b

/-- A cache entry that fits the parameter and shares no memory with anything but it. -/
lemma Wf.update_cache (hs : s.Wf) {c : ScaleTensor} (hlt : c.view.storage < s.memory.next)
    (hfits : c.dtype = .float32 ∧ c.shape = (s.param a).shape ∧ c.device = (s.param a).device)
    (hshares : c.view = (s.param a).view ∧ (s.param a).dtype = .float32 ∨
      ∀ b, c.view.storage ≠ (s.param b).view.storage) :
    Wf { s with cache := Function.update s.cache a (some c) } := by
  have hcase : ∀ b c', Function.update s.cache a (some c) b = some c' →
      (b = a ∧ c' = c) ∨ (b ≠ a ∧ s.cache b = some c') := by
    intro b c' hc'
    by_cases hb : b = a
    · subst hb
      rw [Function.update_self] at hc'
      exact Or.inl ⟨rfl, (Option.some.inj hc').symm⟩
    · rw [Function.update_of_ne hb] at hc'
      exact Or.inr ⟨hb, hc'⟩
  refine ⟨hs.param_lt, hs.param_ne, fun b c' hc' => ?_, fun b b' c' hne hc' => ?_,
    fun b c' hc' => ?_, fun b c' hc' hstorage => ?_⟩
  all_goals rcases hcase b c' hc' with ⟨rfl, rfl⟩ | ⟨-, hold⟩
  · exact hlt
  · exact hs.cache_lt b c' hold
  · rcases hshares with ⟨hview, -⟩ | hfree
    · rw [hview]
      exact hs.param_ne b b' hne
    · exact hfree b'
  · exact hs.cache_ne b b' c' hne hold
  · exact hfits
  · exact hs.cache_fits b c' hold
  · exact hshares.resolve_right fun hfree => hfree b hstorage
  · exact hs.cache_shares b c' hold hstorage

/-- The first conversion of an attribute fills the cache. -/
lemma served_convertCached (hs : s.Wf) (hc : s.cache a = none) :
    Served toFloat s a (s.convertCached toFloat a) := by
  obtain ⟨hparam, hnext, hframe⟩ := keeps_convert toFloat s a
  have hkeeps : s.Keeps (s.convertCached toFloat a).2 := ⟨hparam, hnext, hframe⟩
  have hconv := ScaleTensor.converted toFloat (hs.param_lt a)
  have hwf : (s.convert toFloat a).2.Wf := (keeps_convert toFloat s a).wf hs rfl
  have hread : (s.convertCached toFloat a).1.view.read (s.convertCached toFloat a).2.memory =
      s.held toFloat a := hconv.read.trans (held_of_none hc).symm
  refine ⟨hkeeps, hwf.update_cache hconv.lt ⟨hconv.dtype, hconv.shape, hconv.device⟩ ?_, hconv.lt,
    hread, fun b => ?_⟩
  · exact hconv.shares.imp_right fun hle b => ((hs.param_lt b).trans_le hle).ne'
  · by_cases hb : b = a
    · subst hb
      exact (held_of_some (Function.update_self _ _ _)).trans hread
    · exact hkeeps.held hs (Function.update_of_ne hb _ _)

/-- `_scales_f32c` hands out the cached tensor, which fits, or fills the cache. -/
lemma served_scalesF32c (toFloat : Dtype → V → V) (hs : s.Wf) (a : ScaleAttr) :
    Served toFloat s a (s.scalesF32c toFloat a) := by
  unfold scalesF32c
  cases hc : s.cache a with
  | none => exact served_convertCached hs hc
  | some c =>
    obtain ⟨-, hshape, hdevice⟩ := hs.cache_fits a c hc
    have hsame : ¬(c.shape ≠ (s.param a).shape ∨ c.device ≠ (s.param a).device) := by
      simp [hshape, hdevice]
    simp only [if_neg hsame]
    exact ⟨⟨rfl, le_refl _, fun _ _ => rfl⟩, hs, hs.cache_lt a c hc, (held_of_some hc).symm,
      fun _ => rfl⟩

/-- A fused launch hands out what is held, and holds it afterwards. -/
lemma fusedTpLaunch_spec (toFloat : Dtype → V → V) (hs : s.Wf) :
    (s.fusedTpLaunch toFloat).2.Wf ∧ s.Keeps (s.fusedTpLaunch toFloat).2 ∧
      (∀ a, passed (s.fusedTpLaunch toFloat) a = s.held toFloat a) ∧
      ∀ a, (s.fusedTpLaunch toFloat).2.held toFloat a = s.held toFloat a := by
  have hw13 := served_scalesF32c toFloat hs .w13
  have hw2 := served_scalesF32c toFloat hw13.wf .w2
  refine ⟨hw2.wf, hw13.keeps.trans hw2.keeps, fun a => ?_,
    fun a => (hw2.held a).trans (hw13.held a)⟩
  cases a with
  | w13 => exact (hw2.keeps.read _ hw13.lt).trans hw13.read
  | w2 => exact hw2.read.trans (hw13.held _)

/-- A launch on the ordinary path hands out the current scales, and leaves the cache alone. -/
lemma tryMoeMonokernel_spec (toFloat : Dtype → V → V) (hs : s.Wf) :
    (s.tryMoeMonokernel toFloat).2.Wf ∧ s.Keeps (s.tryMoeMonokernel toFloat).2 ∧
      (∀ a, passed (s.tryMoeMonokernel toFloat) a = s.scales toFloat a) ∧
      ∀ a, (s.tryMoeMonokernel toFloat).2.held toFloat a = s.held toFloat a := by
  have hw13 := keeps_convert toFloat s .w13
  have hw2 := keeps_convert toFloat (s.convert toFloat .w13).2 .w2
  have hwf : (s.convert toFloat .w13).2.Wf := hw13.wf hs rfl
  have hboth := hw13.trans hw2
  have hconv := ScaleTensor.converted toFloat (hs.param_lt .w13)
  have hconv' := ScaleTensor.converted toFloat (hwf.param_lt .w2)
  refine ⟨hboth.wf hs rfl, hboth, fun a => ?_, fun a => hboth.held hs rfl⟩
  cases a with
  | w13 => exact (hw2.read _ hconv.lt).trans hconv.read
  | w2 => exact hconv'.read.trans (hw13.scales hs _)

/-- The path is coherent as long as the cache holds the current scales. -/
lemma coherent_iff (hs : s.Wf) :
    s.Coherent toFloat ↔ ∀ a, s.held toFloat a = s.scales toFloat a := by
  obtain ⟨-, -, hfused, -⟩ := fusedTpLaunch_spec toFloat hs
  obtain ⟨-, -, hordinary, -⟩ := tryMoeMonokernel_spec toFloat hs
  unfold Coherent
  simp only [hfused, hordinary, and_self]

end ScaleState

end Conversions

/-! ## Reloads -/

section Reloads

variable {V : Type} {toFloat : Dtype → V → V} {s : ScaleState V} {a b : ScaleAttr} {r : Reload V}

namespace ScaleState

/-- The memory once the weight loaders are through. -/
def loadedMemory (s : ScaleState V) (a : ScaleAttr) (r : Reload V) : Memory V :=
  match r.loaded with
  | none => s.memory
  | some f => s.memory.fill (s.param a).view f

/-- A reload in place writes the values into the parameter. -/
lemma reload_of_none (h : r.replacement = none) :
    s.reload a r = { s with memory := s.loadedMemory a r } := by
  unfold reload loadedMemory
  simp only [h]

/-- A reload with a new tensor puts it into the place of the parameter. -/
lemma reload_of_some {t : FreshTensor V} (h : r.replacement = some t) :
    s.reload a r = { s with
      memory := (s.loadedMemory a r).alloc t.contents
      param := Function.update s.param a { s.param a with
        view := ⟨s.memory.next, t.positions⟩
        dtype := t.dtype } } := by
  unfold reload loadedMemory
  rw [h]
  cases r.loaded <;> rfl

/-- Loading values allocates nothing. -/
@[simp] lemma next_loadedMemory : (s.loadedMemory a r).next = s.memory.next := by
  unfold loadedMemory
  cases r.loaded <;> rfl

/-- The weight loaders write to the memory of the parameter only. -/
lemma read_loadedMemory_of_ne {v : View} (h : v.storage ≠ (s.param a).view.storage) :
    v.read (s.loadedMemory a r) = v.read s.memory := by
  unfold loadedMemory
  cases r.loaded with
  | none => rfl
  | some f => exact read_fill_of_ne h

/-- What the weight loaders have written can be read through the parameter. -/
lemma values_loadedMemory : (s.param a).values toFloat (s.loadedMemory a r) =
    r.loadedScales toFloat s a := by
  unfold loadedMemory Reload.loadedScales
  cases r.loaded with
  | none => rfl
  | some f =>
    simp only
    rw [ScaleTensor.values, read_fill_self, List.map_map]
    rfl

/-- A reload touches the memory of the parameter and new memory, and binds no other name. -/
lemma read_reload_of_ne {v : View} (hlt : v.storage < s.memory.next)
    (h : v.storage ≠ (s.param a).view.storage) :
    v.read (s.reload a r).memory = v.read s.memory := by
  cases hr : r.replacement with
  | none =>
    rw [reload_of_none hr]
    exact read_loadedMemory_of_ne h
  | some t =>
    rw [reload_of_some hr]
    refine (read_alloc ?_).trans (read_loadedMemory_of_ne h)
    rwa [next_loadedMemory]

/-- What has been written to the memory of the parameter stays there. -/
lemma read_reload_param (hs : s.Wf) :
    (s.param a).view.read (s.reload a r).memory = (s.param a).view.read (s.loadedMemory a r) := by
  cases hr : r.replacement with
  | none => rw [reload_of_none hr]
  | some t =>
    rw [reload_of_some hr]
    refine read_alloc ?_
    rw [next_loadedMemory]
    exact hs.param_lt a

/-- A reload does not touch the cache. -/
@[simp] lemma cache_reload : (s.reload a r).cache = s.cache := by
  cases hr : r.replacement with
  | none => rw [reload_of_none hr]
  | some t => rw [reload_of_some hr]

/-- A reload of one parameter leaves the others. -/
lemma param_reload_of_ne (h : b ≠ a) : (s.reload a r).param b = s.param b := by
  cases hr : r.replacement with
  | none => rw [reload_of_none hr]
  | some t =>
    rw [reload_of_some hr]
    exact Function.update_of_ne h _ _

/-- A parameter after a reload is the one that was there or a tensor in new memory, of the same
shape and on the same device. -/
lemma param_reload (s : ScaleState V) (a : ScaleAttr) (r : Reload V) (b : ScaleAttr) :
    (s.reload a r).param b = s.param b ∨
      (b = a ∧ ((s.reload a r).param b).view.storage = s.memory.next ∧
        s.memory.next < (s.reload a r).memory.next ∧
        ((s.reload a r).param b).shape = (s.param b).shape ∧
        ((s.reload a r).param b).device = (s.param b).device) := by
  by_cases hb : b = a
  · subst hb
    cases hr : r.replacement with
    | none => exact Or.inl (by rw [reload_of_none hr])
    | some t =>
      refine Or.inr ?_
      rw [reload_of_some hr]
      simp
  · exact Or.inl (param_reload_of_ne hb)

/-- A reload frees no storage. -/
lemma next_reload : s.memory.next ≤ (s.reload a r).memory.next := by
  cases hr : r.replacement with
  | none => rw [reload_of_none hr, next_loadedMemory]
  | some t =>
    rw [reload_of_some hr]
    simp

/-- The scales that a reload installs. -/
lemma scales_reload_self : (s.reload a r).scales toFloat a = r.newScales toFloat s a := by
  unfold scales Reload.newScales
  cases hr : r.replacement with
  | none =>
    simp only [reload_of_none hr]
    exact values_loadedMemory
  | some t =>
    rw [reload_of_some hr]
    simp only [Function.update_self, ScaleTensor.values]
    have hread := read_alloc_self (m := s.loadedMemory a r) (f := t.contents) t.positions
    rw [next_loadedMemory] at hread
    rw [hread, List.map_map]
    rfl

/-- A reload leaves the other attribute alone. -/
lemma scales_reload_of_ne (hs : s.Wf) (h : b ≠ a) :
    (s.reload a r).scales toFloat b = s.scales toFloat b := by
  unfold scales ScaleTensor.values
  rw [param_reload_of_ne h, read_reload_of_ne (hs.param_lt b) (hs.param_ne b a h)]

/-- A reload keeps the state well formed. -/
lemma wf_reload (hs : s.Wf) : (s.reload a r).Wf := by
  have hparam := param_reload s a r
  refine ⟨fun b => ?_, fun b b' hne => ?_, fun b c hc => ?_, fun b b' c hne hc => ?_,
    fun b c hc => ?_, fun b c hc hstorage => ?_⟩
  · rcases hparam b with heq | ⟨-, hnew, hlt, -⟩
    · rw [heq]
      exact (hs.param_lt b).trans_le next_reload
    · rwa [hnew]
  · rcases hparam b with heq | ⟨rfl, hnew, -⟩ <;> rcases hparam b' with heq' | ⟨rfl, hnew', -⟩
    · rw [heq, heq']
      exact hs.param_ne b b' hne
    · rw [heq, hnew']
      exact (hs.param_lt b).ne
    · rw [heq', hnew]
      exact (hs.param_lt b').ne'
    · exact absurd rfl hne
  · exact (hs.cache_lt b c (cache_reload ▸ hc)).trans_le next_reload
  · rw [cache_reload] at hc
    rcases hparam b' with heq | ⟨-, hnew, -⟩
    · rw [heq]
      exact hs.cache_ne b b' c hne hc
    · rw [hnew]
      exact (hs.cache_lt b c hc).ne
  · rw [cache_reload] at hc
    rcases hparam b with heq | ⟨-, -, -, hshape, hdevice⟩
    · rw [heq]
      exact hs.cache_fits b c hc
    · rw [hshape, hdevice]
      exact hs.cache_fits b c hc
  · rw [cache_reload] at hc
    rcases hparam b with heq | ⟨-, hnew, -⟩
    · rw [heq] at hstorage ⊢
      exact hs.cache_shares b c hc hstorage
    · rw [hnew] at hstorage
      exact absurd hstorage (hs.cache_lt b c hc).ne

/-- What a reload leaves in the cache. -/
lemma held_reload_of_some (hs : s.Wf) {c : ScaleTensor} (hc : s.cache a = some c) :
    (s.reload a r).held toFloat a =
      if c.view.storage = (s.param a).view.storage then r.loadedScales toFloat s a
      else s.held toFloat a := by
  have hheld : (s.reload a r).held toFloat a = c.view.read (s.reload a r).memory :=
    held_of_some (by rw [cache_reload, hc])
  rw [hheld]
  split_ifs with hstorage
  · obtain ⟨hview, hdtype⟩ := hs.cache_shares a c hc hstorage
    rw [hview, read_reload_param hs, ← values_loadedMemory, ScaleTensor.values_of_float32 hdtype]
  · rw [held_of_some hc, read_reload_of_ne (hs.cache_lt a c hc) hstorage]

/-- A reload leaves the cache of the other attribute alone. -/
lemma held_reload_of_ne (hs : s.Wf) (h : b ≠ a) :
    (s.reload a r).held toFloat b = s.held toFloat b := by
  cases hc : s.cache b with
  | none =>
    rw [held_of_none hc, held_of_none (by rw [cache_reload, hc]), scales_reload_of_ne hs h]
  | some c =>
    rw [held_of_some hc, held_of_some (c := c) (by rw [cache_reload, hc]),
      read_reload_of_ne (hs.cache_lt b c hc) (hs.cache_ne b a c h hc)]

/-- A reload keeps the path coherent exactly when it is harmless. -/
lemma coherent_reload_iff (hs : s.Wf) (h : s.Coherent toFloat) :
    (s.reload a r).Coherent toFloat ↔ r.Harmless toFloat s a := by
  rw [coherent_iff hs] at h
  rw [coherent_iff (wf_reload hs)]
  have hself : (s.reload a r).held toFloat a = (s.reload a r).scales toFloat a ↔
      r.Harmless toFloat s a := by
    rw [scales_reload_self]
    unfold Reload.Harmless
    cases hc : s.cache a with
    | none =>
      have hnone : (s.reload a r).cache a = none := by rw [cache_reload, hc]
      simp [held_of_none hnone, scales_reload_self]
    | some c =>
      rw [held_reload_of_some hs hc, h a]
      simp [eq_comm]
  rw [← hself]
  refine ⟨fun hall => hall a, fun hone b => ?_⟩
  by_cases hb : b = a
  · rw [hb, hone]
  · rw [held_reload_of_ne hs hb, scales_reload_of_ne hs hb, h b]

end ScaleState

end Reloads

/-! ## Sequences of operations -/

section Sequences

variable {V : Type} {toFloat : Dtype → V → V} {s : ScaleState V}

namespace ScaleState

/-- Every operation keeps the state well formed. -/
lemma wf_step (hs : s.Wf) (op : ScaleOp V) : (s.step toFloat op).Wf := by
  cases op with
  | reload a r => exact wf_reload hs
  | launch fused =>
    cases fused with
    | true => exact (fusedTpLaunch_spec toFloat hs).1
    | false => exact (tryMoeMonokernel_spec toFloat hs).1

/-- No launch makes the path incoherent. -/
lemma coherent_launch (hs : s.Wf) (h : s.Coherent toFloat) (fused : Bool) :
    (s.step toFloat (.launch fused)).Coherent toFloat := by
  rw [coherent_iff hs] at h
  rw [coherent_iff (wf_step hs _)]
  intro a
  cases fused with
  | true =>
    obtain ⟨-, hkeeps, -, hheld⟩ := fusedTpLaunch_spec toFloat hs
    exact (hheld a).trans ((h a).trans (hkeeps.scales hs a).symm)
  | false =>
    obtain ⟨-, hkeeps, -, hheld⟩ := tryMoeMonokernel_spec toFloat hs
    exact (hheld a).trans ((h a).trans (hkeeps.scales hs a).symm)

/-- A sequence of operations runs in two parts. -/
lemma run_append (s : ScaleState V) (ops ops' : List (ScaleOp V)) :
    s.run toFloat (ops ++ ops') = (s.run toFloat ops).run toFloat ops' := List.foldl_append

/-- A run keeps the state well formed. -/
lemma Wf.run (hs : s.Wf) (toFloat : Dtype → V → V) (ops : List (ScaleOp V)) :
    (s.run toFloat ops).Wf := by
  induction ops using List.reverseRecOn with
  | nil => exact hs
  | append_singleton ops op ih =>
    rw [run_append]
    exact wf_step ih op

/-- A layer that has just been created has nothing cached. -/
lemma coherent_created (p : ScaleAttr → CreatedParam V) : (created p).Coherent toFloat :=
  (coherent_iff (wf_created p)).mpr fun _ => held_of_none rfl

end ScaleState

end Sequences

/-- In any sequence of loads, reloads and launches on a layer, a fused launch hands the kernel the
current fp32 values of the scales wherever it comes, if and only if every reload of the sequence is
harmless in the state that it finds. -/
theorem scales_coherent_iff {V : Type} (toFloat : Dtype → V → V)
    (p : ScaleAttr → CreatedParam V) (ops : List (ScaleOp V)) :
    (∀ pre, pre <+: ops → ((ScaleState.created p).run toFloat pre).Coherent toFloat) ↔
      ∀ pre a r, pre ++ [.reload a r] <+: ops →
        r.Harmless toFloat ((ScaleState.created p).run toFloat pre) a := by
  have hwf := fun pre => (ScaleState.wf_created p).run toFloat pre
  refine ⟨fun h pre a r hpre => ?_, fun h pre => ?_⟩
  · have hafter := h _ hpre
    rw [ScaleState.run_append] at hafter
    exact (ScaleState.coherent_reload_iff (hwf pre)
      (h pre ((List.prefix_append _ _).trans hpre))).mp hafter
  · induction pre using List.reverseRecOn with
    | nil => exact fun _ => ScaleState.coherent_created p
    | append_singleton pre op ih =>
      intro hpre
      have hbefore := ih ((List.prefix_append _ _).trans hpre)
      rw [ScaleState.run_append]
      cases op with
      | reload a r => exact (ScaleState.coherent_reload_iff (hwf pre) hbefore).mpr (h pre a r hpre)
      | launch fused => exact ScaleState.coherent_launch (hwf pre) hbefore fused

/-- One scale an attribute, in fp32, with the value 1. -/
def sampleScaleState : ScaleState ℕ :=
  ScaleState.created fun _ => ⟨⟨.float32, [0], fun _ => 1⟩, [1], 0⟩

/-- A fused launch, and a reload with the value 2 in new memory. -/
def sampleScaleOps : List (ScaleOp ℕ) :=
  [.launch true, .reload .w13 ⟨none, some ⟨.float32, [0], fun _ => 2⟩⟩]

/-- After a reload the fused path still hands out the scale of the first launch. -/
theorem stale_scales :
    ScaleState.passed ((sampleScaleState.run (fun _ v => v) sampleScaleOps).fusedTpLaunch
      fun _ v => v) .w13 = [1] ∧
    ScaleState.passed ((sampleScaleState.run (fun _ v => v) sampleScaleOps).tryMoeMonokernel
      fun _ v => v) .w13 = [2] ∧
    (sampleScaleState.run (fun _ v => v) sampleScaleOps).scales (fun _ v => v) .w13 = [2] := by
  decide

end UnimonoMoe
