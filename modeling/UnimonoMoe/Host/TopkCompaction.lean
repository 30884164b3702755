import UnimonoMoe.Lib.Loops
import UnimonoMoe.Lib.StablePartition

/-!
# Compaction of the received top-k slots

DeepEP hands a rank one row of `full` slots for every token it receives; a slot is the local id of
an expert, or `-1`.  The receiver puts the ids back into the global space and fills the slots that
are not owned with an expert of another rank, which the expert map of this rank sends to `-1`.
`compactExpertTopk` and `compactExpertTopkEager` also narrow the rows to the widest owned part.

`Preserves` is what the experts may rely on: each row holds the owned slots, in order and with their
weights, and nothing else that the map keeps.  The eager version sorts, the kernel selects by
prefix counts; both are the stable partition of the row (`compaction_preserves_routing`).
-/

namespace UnimonoMoe

open StablePartition

/-! ## Rows of slots -/

/-- The received ids and weights. -/
structure Received (W : Type*) where
  n : ℕ
  full : ℕ
  ids : ℕ → ℕ → ℤ
  weights : Option (ℕ → ℕ → W)

/-- The ids and weights handed to the experts. -/
structure TopkRows (W : Type*) where
  width : ℕ
  ids : ℕ → ℕ → ℤ
  weights : Option (ℕ → ℕ → W)

/-- The slots of a row. -/
def TopkRows.slots {W : Type*} (rows : TopkRows W) (r : ℕ) : List (ℤ × Option W) :=
  (List.range rows.width).map fun j => (rows.ids r j, rows.weights.map fun w => w r j)

section Model

variable {W : Type*} (recv : Received W) (numExperts offset : ℤ)

/-- `ids != -1` -/
def Received.valid (r c : ℕ) : Bool := recv.ids r c != -1

/-- The owned slots of a row, in order. -/
def Received.owned (r : ℕ) : List ℕ := (List.range recv.full).filter (recv.valid r)

/-- The id of a slot that is not owned. -/
def fake : ℤ := if offset = 0 then numExperts - 1 else 0

/-- `_default_expert_topk`. -/
def defaultExpertTopk : TopkRows W where
  width := recv.full
  ids r c := if recv.ids r c = -1 then fake numExperts offset else recv.ids r c + offset
  weights := recv.weights

/-! ### The eager version -/

/-- `torch.argsort((~valid).to(torch.int32), dim=1, stable=True)`. -/
def Received.order (r : ℕ) : List ℕ :=
  (List.range recv.full).mergeSort fun i j =>
    decide (key (recv.valid r) i ≤ key (recv.valid r) j)

/-- `x.gather(1, order)`. -/
def gather {V : Type*} (x : ℕ → ℕ → V) (r : ℕ) (j : ℕ) : V := x r ((recv.order r).getD j 0)

/-- `int(valid.sum(1).max().item())` -/
def Received.widest : ℕ := (List.range recv.n).foldl (fun m r => max m (recv.owned r).length) 0

/-- The rows of `_compact_expert_topk_eager`. -/
def eagerRows : TopkRows W :=
  let w := recv.widest
  let cut : Bool := 0 < w ∧ w < recv.full
  let ids := if cut then gather recv recv.ids else recv.ids
  { width := if cut then w else recv.full
    ids := fun r c => if ids r c ≠ -1 then ids r c + offset else fake numExperts offset
    weights := if cut then recv.weights.map (gather recv) else recv.weights }

/-- `_compact_expert_topk_eager`.  There is no maximum over no rows. -/
def compactExpertTopkEager : Option (TopkRows W) :=
  if recv.n = 0 then none else some (eagerRows recv numExperts offset)

/-! ### The kernels -/

/-- `tl.arange(0, n)` compiles. -/
def arangeCompiles (n : ℕ) : Bool := 0 < n && n &&& (n - 1) = 0

/-- `cnt` of one row in `_ep_amax_kernel`: rows past the end load `-1` everywhere. -/
def amaxCount (row : ℕ) : ℕ :=
  if row < recv.n then
    ∑ c ∈ Finset.range recv.full, if recv.ids row c ≠ -1 then 1 else 0
  else 0

/-- What program `pid` of `_ep_amax_kernel` contributes to the width, with `BR = 128`. -/
def amaxBlock (pid : ℕ) : ℕ :=
  (List.range 128).foldl (fun m i => max m (amaxCount recv (pid * 128 + i))) 0

/-- `out[0]` after the programs of `_ep_amax_kernel` have run in this order on a zeroed buffer. -/
def epAmax (order : List ℕ) : ℕ := order.foldl (fun m pid => max m (amaxBlock recv pid)) 0

/-- `sel` for output column `j` and source column `c`. -/
def packSel (r j c : ℕ) : Prop := rank (recv.valid r) c = j ∧ recv.valid r c = true

instance (r j c : ℕ) : Decidable (packSel recv r j c) := inferInstanceAs (Decidable (_ ∧ _))

/-- `hit` -/
def packHit (r j : ℕ) : Prop :=
  0 < ∑ c ∈ Finset.range recv.full, if packSel recv r j c then 1 else 0

instance (r j : ℕ) : Decidable (packHit recv r j) := Nat.decLt _ _

/-- The id that `_ep_pack_kernel` stores in column `j` of row `r`. -/
def packId (r j : ℕ) : ℤ :=
  if packHit recv r j then
    ∑ c ∈ Finset.range recv.full, if packSel recv r j c then recv.ids r c + offset else 0
  else fake numExperts offset

/-- The weight that `_ep_pack_kernel` stores in column `j` of row `r`. -/
def packWeight [AddCommMonoid W] (weights : ℕ → ℕ → W) (r j : ℕ) : W :=
  if packHit recv r j then
    ∑ c ∈ Finset.range recv.full, if packSel recv r j c then weights r c else 0
  else 0

/-- `_compact_expert_topk`, with the programs of the first kernel in this order.  The kernels do
not compile for every width. -/
def compactExpertTopk [AddCommMonoid W] (order : List ℕ) : Option (TopkRows W) :=
  if arangeCompiles recv.full then
    let w := max (epAmax recv order) 1
    if recv.full ≤ w then some (defaultExpertTopk recv numExperts offset)
    else some
      { width := w
        ids := packId recv numExperts offset
        weights := recv.weights.map (packWeight recv) }
  else none

/-- The ids and weights of `_receiver`, for a value of `VLLM_EP_TOPK_COMPACT`. -/
def receiverTopk [AddCommMonoid W] (compact : ℤ) (order : List ℕ) : Option (TopkRows W) :=
  if compact ≠ 0 ∧ 0 < recv.n * recv.full then
    if compact = 1 then compactExpertTopk recv numExperts offset order
    else compactExpertTopkEager recv numExperts offset
  else some (defaultExpertTopk recv numExperts offset)

end Model

/-! ## What the experts rely on -/

/-- The experts of this rank: a window of the experts, and not all of them. -/
structure Placement where
  numExperts : ℕ
  offset : ℕ
  count : ℕ
  le : offset + count ≤ numExperts
  lt : count < numExperts

/-- The placement of one of at least two ranks with equally many experts. -/
def Placement.ofRank (world rank perRank : ℕ) (hworld : 2 ≤ world) (hrank : rank < world)
    (hcount : 0 < perRank) : Placement where
  numExperts := world * perRank
  offset := rank * perRank
  count := perRank
  le := by
    rw [← Nat.succ_mul]
    exact Nat.mul_le_mul_right _ hrank
  lt := lt_mul_of_one_lt_left hcount hworld

/-- The expert map of the rank. -/
def Placement.expertMap (P : Placement) (g : ℤ) : ℤ :=
  if P.offset ≤ g ∧ g < P.offset + P.count then g - P.offset else -1

/-- The received ids are local ids of the rank, or `-1`. -/
def Received.Local {W : Type*} (P : Placement) (recv : Received W) : Prop :=
  ∀ r < recv.n, ∀ c < recv.full, recv.ids r c = -1 ∨ (0 ≤ recv.ids r c ∧ recv.ids r c < P.count)

/-- The global id and the weight of a slot that is owned. -/
def Received.pair {W : Type*} (P : Placement) (recv : Received W) (r c : ℕ) : ℤ × Option W :=
  (recv.ids r c + P.offset, recv.weights.map fun w => w r c)

/-- The slot that the default path makes of a received one. -/
def Received.slot {W : Type*} (P : Placement) (recv : Received W) (r c : ℕ) : ℤ × Option W :=
  ((defaultExpertTopk recv P.numExperts P.offset).ids r c, recv.weights.map fun w => w r c)

/-- The slots of a row that the expert map keeps. -/
def TopkRows.kept {W : Type*} (P : Placement) (rows : TopkRows W) (r : ℕ) : List (ℤ × Option W) :=
  (rows.slots r).filter fun s => P.expertMap s.1 ≠ -1

/-- The rows carry the received routing. -/
structure Preserves {W : Type*} (P : Placement) (recv : Received W) (rows : TopkRows W) : Prop where
  /-- What the map keeps is what it keeps of the default path, in the same order. -/
  kept : ∀ r < recv.n, rows.kept P r = (defaultExpertTopk recv P.numExperts P.offset).kept P r
  /-- These are the owned slots, none is dropped. -/
  owned : ∀ r < recv.n,
    rows.kept P r = (recv.owned r).map (recv.pair P r)
  /-- All other slots hold an id that the map sends to `-1`. -/
  filler : ∀ r < recv.n, (rows.slots r).countP (fun s => P.expertMap s.1 = -1) +
    (recv.owned r).length = rows.width
  length_owned_le : ∀ r < recv.n, (recv.owned r).length ≤ rows.width
  one_le : 1 ≤ rows.width
  le_full : rows.width ≤ recv.full

/-! ## The two versions -/

section Proofs

variable {W : Type*} {P : Placement} {recv : Received W} {rows : TopkRows W} {r : ℕ}

/-- A slot is owned when it has an id. -/
lemma valid_eq_true {c : ℕ} : recv.valid r c = true ↔ recv.ids r c ≠ -1 := by
  simp [Received.valid]

/-- It is not when the id is `-1`. -/
lemma valid_eq_false {c : ℕ} : recv.valid r c = false ↔ recv.ids r c = -1 := by
  simp [Received.valid]

/-- The default path puts the id of an owned slot back into the global space. -/
lemma defaultId_of_valid {numExperts offset : ℤ} {c : ℕ} (h : recv.valid r c = true) :
    (defaultExpertTopk recv numExperts offset).ids r c = recv.ids r c + offset :=
  if_neg (valid_eq_true.mp h)

/-- And it fills the others with an expert of another rank. -/
lemma defaultId_of_not {numExperts offset : ℤ} {c : ℕ} (h : recv.valid r c = false) :
    (defaultExpertTopk recv numExperts offset).ids r c = fake numExperts offset :=
  if_pos (valid_eq_false.mp h)

/-- The filler belongs to another rank, the last one for the first rank and the first one for all
others. -/
lemma Placement.expertMap_fake (P : Placement) :
    P.expertMap (fake P.numExperts P.offset) = -1 := by
  have hlt := P.lt
  unfold fake
  split_ifs with hoff
  · rw [Placement.expertMap, if_neg (by omega)]
  · rw [Placement.expertMap, if_neg (by omega)]

/-- The map of an owned slot is its local id. -/
lemma Placement.expertMap_add (P : Placement) {l : ℤ} (h₀ : 0 ≤ l) (hl : l < P.count) :
    P.expertMap (l + P.offset) = l := by
  rw [Placement.expertMap, if_pos (by omega), add_sub_cancel_right]

/-- The map keeps the owned slots. -/
lemma expertMap_pair (hlocal : recv.Local P) (hr : r < recv.n) {c : ℕ} (hc : c < recv.full)
    (hvalid : recv.valid r c = true) : P.expertMap (recv.pair P r c).1 ≠ -1 := by
  obtain ⟨h₀, hl⟩ := (hlocal r hr c hc).resolve_left (valid_eq_true.mp hvalid)
  rw [Received.pair, P.expertMap_add h₀ hl]
  omega

/-- A row that consists of the owned slots and of fillers. -/
lemma kept_of_split (hlocal : recv.Local P) (hr : r < recv.n) (fill : List (ℤ × Option W))
    (hsplit : rows.slots r =
      (recv.owned r).map (recv.pair P r) ++ fill)
    (hfill : ∀ s ∈ fill, s.1 = fake P.numExperts P.offset) :
    rows.kept P r = (recv.owned r).map (recv.pair P r) := by
  have hall : ∀ s ∈ (recv.owned r).map (recv.pair P r),
      decide (P.expertMap s.1 ≠ -1) = true := by
    intro s hs
    obtain ⟨c, hc, rfl⟩ := List.mem_map.mp hs
    exact decide_eq_true (expertMap_pair hlocal hr (List.mem_range.mp (List.mem_of_mem_filter hc))
      (List.of_mem_filter hc))
  have hnone : ∀ s ∈ fill, ¬ decide (P.expertMap s.1 ≠ -1) = true := by
    intro s hs
    rw [hfill s hs, P.expertMap_fake]
    simp
  rw [TopkRows.kept, hsplit, List.filter_append, List.filter_eq_self.mpr hall,
    List.filter_eq_nil_iff.mpr hnone, List.append_nil]

/-- The owned slots of the default path. -/
lemma map_slot_owned (r : ℕ) :
    (recv.owned r).map (recv.slot P r) =
      (recv.owned r).map (recv.pair P r) := by
  refine List.map_congr_left fun c hc => ?_
  rw [Received.slot, defaultId_of_valid (List.of_mem_filter hc)]
  rfl

/-- What the map keeps of the default path: the owned slots. -/
lemma kept_default (hlocal : recv.Local P) (hr : r < recv.n) :
    (defaultExpertTopk recv P.numExperts P.offset).kept P r =
      (recv.owned r).map (recv.pair P r) := by
  have hkeeps : ∀ c ∈ List.range recv.full,
      decide (P.expertMap (recv.slot P r c).1 ≠ -1) = recv.valid r c := by
    intro c hc
    cases hvalid : recv.valid r c with
    | true =>
      rw [Received.slot, defaultId_of_valid hvalid]
      exact decide_eq_true (expertMap_pair hlocal hr (List.mem_range.mp hc) hvalid)
    | false =>
      rw [Received.slot, defaultId_of_not hvalid, P.expertMap_fake]
      rfl
  have hslots : (defaultExpertTopk recv P.numExperts P.offset).slots r =
      (List.range recv.full).map (recv.slot P r) := rfl
  rw [← map_slot_owned, TopkRows.kept, hslots, List.filter_map]
  exact congrArg (List.map (recv.slot P r)) (List.filter_congr hkeeps)

/-- Rows that keep the owned slots and are wide enough. -/
lemma Preserves.of_kept (hlocal : recv.Local P)
    (hkept : ∀ r < recv.n, rows.kept P r =
      (recv.owned r).map (recv.pair P r))
    (hone : 1 ≤ rows.width) (hfull : rows.width ≤ recv.full) : Preserves P recv rows := by
  have hcount : ∀ r < recv.n, (rows.slots r).countP (fun s => P.expertMap s.1 = -1) +
      (recv.owned r).length = rows.width := by
    intro r hr
    have hlength := List.length_eq_countP_add_countP (fun s => decide (P.expertMap s.1 = -1))
      (l := rows.slots r)
    have hwidth : (rows.slots r).length = rows.width := by
      rw [TopkRows.slots, List.length_map, List.length_range]
    have howned : (recv.owned r).length = (rows.kept P r).length := by
      rw [hkept r hr, List.length_map, Received.owned]
    rw [howned, ← hwidth, hlength, TopkRows.kept, ← List.countP_eq_length_filter]
    simp
  exact ⟨fun r hr => (hkept r hr).trans (kept_default hlocal hr).symm, hkept, hcount,
    fun r hr => by rw [← hcount r hr]; exact Nat.le_add_left _ _, hone, hfull⟩

/-! ### The sort -/

/-- The widest row is as wide as any. -/
lemma length_owned_le_widest (hr : r < recv.n) : (recv.owned r).length ≤ recv.widest :=
  (Loops.le_foldl_max (fun r => (recv.owned r).length) (List.range recv.n) 0).2 r
    (List.mem_range.mpr hr)

/-- The slots after the gather are those of the sorted row. -/
lemma slots_eager_cut (hcut : 0 < recv.widest ∧ recv.widest < recv.full) (r : ℕ) :
    (eagerRows recv P.numExperts P.offset).slots r =
      ((recv.order r).take recv.widest).map (recv.slot P r) := by
  have hlength : (recv.order r).length = recv.full := by
    rw [Received.order, List.length_mergeSort, List.length_range]
  have hslot : ∀ j, ((eagerRows recv P.numExperts P.offset).ids r j,
      (eagerRows recv P.numExperts P.offset).weights.map fun w => w r j) =
        recv.slot P r ((recv.order r).getD j 0) := by
    intro j
    cases hw : recv.weights <;>
      simp [eagerRows, Received.slot, defaultExpertTopk, hcut, hw, gather]
  have hwidth : (eagerRows recv P.numExperts P.offset).width = recv.widest := by
    simp [eagerRows, hcut]
  unfold TopkRows.slots
  rw [hwidth]
  refine List.ext_getElem (by simp [hlength, hcut.2.le]) fun j hj hj' => ?_
  have hjorder : j < (recv.order r).length := by
    rw [List.length_map, List.length_range] at hj
    rw [hlength]
    exact hj.trans hcut.2
  rw [List.getElem_map, List.getElem_range, hslot, List.getElem_map, List.getElem_take,
    List.getD_eq_getElem _ _ hjorder]

/-- The sorted rows. -/
lemma kept_eager (hlocal : recv.Local P) (hr : r < recv.n) :
    (eagerRows recv P.numExperts P.offset).kept P r =
      (recv.owned r).map (recv.pair P r) := by
  by_cases hcut : 0 < recv.widest ∧ recv.widest < recv.full
  · have horder : (recv.order r).take recv.widest =
        recv.owned r ++
          ((List.range recv.full).filter fun c => !recv.valid r c).take
            (recv.widest - (recv.owned r).length) := by
      rw [Received.order, mergeSort_key, ← Received.owned, List.take_append,
        List.take_of_length_le (length_owned_le_widest hr)]
    have hslots := slots_eager_cut (P := P) hcut r
    rw [horder, List.map_append, map_slot_owned] at hslots
    refine kept_of_split hlocal hr _ hslots fun s hs => ?_
    obtain ⟨c, hc, rfl⟩ := List.mem_map.mp hs
    have hvalid := List.of_mem_filter (List.mem_of_mem_take hc)
    exact defaultId_of_not (by simpa using hvalid)
  · have hdefault : eagerRows recv P.numExperts P.offset =
        defaultExpertTopk recv P.numExperts P.offset := by
      simp [eagerRows, defaultExpertTopk, hcut]
    rw [hdefault, kept_default hlocal hr]

/-- The eager version carries the routing. -/
theorem preserves_eager (hlocal : recv.Local P) (hfull : 0 < recv.full) :
    Preserves P recv (eagerRows recv P.numExperts P.offset) := by
  have hwidth : (eagerRows recv P.numExperts P.offset).width =
      if 0 < recv.widest ∧ recv.widest < recv.full then recv.widest else recv.full := by
    simp [eagerRows]
  refine .of_kept hlocal (fun r hr => kept_eager hlocal hr) ?_ ?_ <;> rw [hwidth] <;>
    split_ifs with hcut
  · exact hcut.1
  · exact hfull
  · exact hcut.2.le
  · exact le_rfl

/-! ### The kernels -/

/-- A row of `_ep_amax_kernel` counts its owned slots. -/
lemma amaxCount_eq (hr : r < recv.n) : amaxCount recv r = (recv.owned r).length := by
  have hsum := sum_one_eq_length (recv.valid r) recv.full
  simp only [valid_eq_true] at hsum
  rw [amaxCount, if_pos hr, Received.owned, hsum]

/-- The width is that of the widest row, in whatever order the programs run. -/
lemma length_owned_le_epAmax {order : List ℕ}
    (horder : order.Perm (List.range ((recv.n + 127) / 128))) (hr : r < recv.n) :
    (recv.owned r).length ≤ epAmax recv order := by
  have hblock : r / 128 ∈ order := horder.mem_iff.mpr (List.mem_range.mpr (by omega))
  have hrow : amaxCount recv r ≤ amaxBlock recv (r / 128) := by
    have hle := (Loops.le_foldl_max (fun i => amaxCount recv (r / 128 * 128 + i))
      (List.range 128) 0).2 (r % 128) (List.mem_range.mpr (Nat.mod_lt _ (by norm_num)))
    rwa [Nat.div_add_mod'] at hle
  rw [← amaxCount_eq hr]
  exact hrow.trans ((Loops.le_foldl_max (amaxBlock recv) order 0).2 _ hblock)

/-- The select over the columns finds the entries of the owned part. -/
lemma sum_packSel {V : Type*} [AddCommMonoid V] (f : ℕ → V) (r j : ℕ) :
    (∑ c ∈ Finset.range recv.full, if packSel recv r j c then f c else 0) =
      ((recv.owned r).map f).getD j 0 :=
  sum_select_eq (recv.valid r) f recv.full j

/-- A column is hit when it is one of the owned part. -/
lemma packHit_iff {j : ℕ} : packHit recv r j ↔ j < (recv.owned r).length := by
  rw [packHit, sum_packSel]
  by_cases hj : j < (recv.owned r).length
  · rw [List.getD_eq_getElem _ _ (by rwa [List.length_map]), List.getElem_map]
    exact iff_of_true Nat.one_pos hj
  · rw [List.getD_eq_default _ _ (by rw [List.length_map]; exact not_lt.mp hj)]
    exact iff_of_false (lt_irrefl 0) hj

variable [AddCommMonoid W]

/-- What the kernel stores in an owned column. -/
lemma packed_owned {j : ℕ} (hj : j < (recv.owned r).length) :
    (packId recv P.numExperts P.offset r j,
        (recv.weights.map (packWeight recv)).map fun w => w r j) =
      recv.pair P r ((recv.owned r)[j]) := by
  have hid : packId recv P.numExperts P.offset r j =
      recv.ids r ((recv.owned r)[j]) + P.offset := by
    rw [packId, if_pos (packHit_iff.mpr hj), sum_packSel fun c => recv.ids r c + P.offset,
      List.getD_eq_getElem _ _ (by rwa [List.length_map]), List.getElem_map]
  have hweight : ∀ w : ℕ → ℕ → W, packWeight recv w r j =
      w r ((recv.owned r)[j]) := fun w => by
    rw [packWeight, if_pos (packHit_iff.mpr hj), sum_packSel fun c => w r c,
      List.getD_eq_getElem _ _ (by rwa [List.length_map]), List.getElem_map]
  rw [Received.pair, hid, Option.map_map]
  congr 1
  exact Option.map_congr fun w _ => hweight w

/-- The packed rows. -/
lemma kept_packed (hlocal : recv.Local P) (hr : r < recv.n) {w : ℕ}
    (hw : (recv.owned r).length ≤ w) :
    (TopkRows.mk w (packId recv P.numExperts P.offset)
      (recv.weights.map (packWeight recv))).kept P r = (recv.owned r).map (recv.pair P r) := by
  obtain ⟨d, rfl⟩ := Nat.exists_eq_add_of_le hw
  refine kept_of_split hlocal hr ((List.range d).map fun i =>
    (packId recv P.numExperts P.offset r ((recv.owned r).length + i),
      (recv.weights.map (packWeight recv)).map fun w => w r ((recv.owned r).length + i))) ?_ ?_
  · rw [TopkRows.slots, List.range_add, List.map_append, List.map_map]
    congr 1
    refine List.ext_getElem (by simp) fun j hj _ => ?_
    rw [List.getElem_map, List.getElem_range, List.getElem_map]
    exact packed_owned (by simpa using hj)
  · intro s hs
    obtain ⟨i, -, rfl⟩ := List.mem_map.mp hs
    exact if_neg (packHit_iff.not.mpr (by omega))

/-- The kernels carry the routing, where they compile. -/
theorem preserves_compact (hlocal : recv.Local P) (hfull : 0 < recv.full) {order : List ℕ}
    (horder : order.Perm (List.range ((recv.n + 127) / 128)))
    (hcompiles : arangeCompiles recv.full = true) :
    ∃ rows, compactExpertTopk recv P.numExperts P.offset order = some rows ∧
      Preserves P recv rows := by
  unfold compactExpertTopk
  rw [if_pos hcompiles]
  by_cases hw : recv.full ≤ max (epAmax recv order) 1
  · refine ⟨_, if_pos hw, .of_kept hlocal (fun r hr => kept_default hlocal hr) hfull le_rfl⟩
  · refine ⟨_, if_neg hw, .of_kept hlocal (fun r hr => kept_packed hlocal hr ?_)
      (le_max_right _ _) (not_le.mp hw).le⟩
    exact (length_owned_le_epAmax horder hr).trans (le_max_left _ _)

end Proofs

/-- The eager version carries the routing of every nonempty matrix, and so do the kernels where they
compile, which takes a power of two of slots; where they do not, the call raises. -/
theorem compaction_preserves_routing {W : Type*} [AddCommMonoid W] (P : Placement)
    (recv : Received W) (hlocal : recv.Local P) (hnumel : 0 < recv.n * recv.full) {order : List ℕ}
    (horder : order.Perm (List.range ((recv.n + 127) / 128))) :
    (∃ rows, compactExpertTopkEager recv P.numExperts P.offset = some rows ∧
      Preserves P recv rows) ∧
    (arangeCompiles recv.full = true → ∃ rows,
      compactExpertTopk recv P.numExperts P.offset order = some rows ∧ Preserves P recv rows) ∧
    (arangeCompiles recv.full = false →
      compactExpertTopk recv P.numExperts P.offset order = none) := by
  have hn : recv.n ≠ 0 := (Nat.pos_of_mul_pos_right hnumel).ne'
  have hfull : 0 < recv.full := Nat.pos_of_mul_pos_left hnumel
  refine ⟨⟨_, if_neg hn, preserves_eager hlocal hfull⟩, preserves_compact hlocal hfull horder,
    fun hnot => ?_⟩
  rw [compactExpertTopk, hnot, if_neg Bool.false_ne_true]

/-- Whatever the receiver is asked to do, it carries the routing of a nonempty matrix. -/
theorem receiver_preserves {W : Type*} [AddCommMonoid W] (P : Placement) (recv : Received W)
    (hlocal : recv.Local P) (hnumel : 0 < recv.n * recv.full) {order : List ℕ}
    (horder : order.Perm (List.range ((recv.n + 127) / 128))) {compact : ℤ}
    (hcompiles : compact = 1 → arangeCompiles recv.full = true) :
    ∃ rows, receiverTopk recv P.numExperts P.offset compact order = some rows ∧
      Preserves P recv rows := by
  have hn : recv.n ≠ 0 := (Nat.pos_of_mul_pos_right hnumel).ne'
  have hfull : 0 < recv.full := Nat.pos_of_mul_pos_left hnumel
  unfold receiverTopk
  by_cases hcompact : compact = 0
  · rw [if_neg (fun h => h.1 hcompact)]
    exact ⟨_, rfl, .of_kept hlocal (fun r hr => kept_default hlocal hr) hfull le_rfl⟩
  · rw [if_pos ⟨hcompact, hnumel⟩]
    by_cases hone : compact = 1
    · rw [if_pos hone]
      exact preserves_compact hlocal hfull horder (hcompiles hone)
    · rw [if_neg hone]
      exact ⟨_, if_neg hn, preserves_eager hlocal hfull⟩

/-! ### The second of two ranks with four experts each -/

section Examples

/-- The rank. -/
def secondRank : Placement := .ofRank 2 1 4 le_rfl Nat.one_lt_two (Nat.succ_pos 3)

/-- Two rows of slots, every other one owned. -/
def alternating (full : ℕ) : Received ℕ where
  n := 2
  full := full
  ids r c := if c % 2 = r then c / 2 else -1
  weights := some fun r c => 10 * r + c

/-- The ids of the sample are local. -/
lemma local_alternating {full : ℕ} (h : full ≤ 8) : (alternating full).Local secondRank := by
  intro r _ c hc
  have hc' : c < full := hc
  have hcount : secondRank.count = 4 := rfl
  rw [hcount]
  simp only [alternating]
  split_ifs
  · exact Or.inr (by omega)
  · exact Or.inl rfl

/-- Rows of eight slots. -/
theorem compaction_preserves_routing_alternating :
    ∃ rows, compactExpertTopk (alternating 8) 8 4 [0] = some rows ∧
      Preserves secondRank (alternating 8) rows :=
  (compaction_preserves_routing secondRank (alternating 8) (local_alternating le_rfl)
    (by decide) (List.Perm.refl [0])).2.1 (by decide)

/-- Rows of six slots: the eager version carries the routing, the kernels do not compile. -/
theorem six_slots_do_not_compile : (alternating 6).Local secondRank ∧
    0 < (alternating 6).n * (alternating 6).full ∧
      (∃ rows, compactExpertTopkEager (alternating 6) 8 4 = some rows ∧
        Preserves secondRank (alternating 6) rows) ∧
      compactExpertTopk (alternating 6) 8 4 [0] = none :=
  ⟨local_alternating (by decide), by decide,
    ⟨_, rfl, preserves_eager (local_alternating (by decide)) (by decide)⟩, rfl⟩

end Examples

end UnimonoMoe
