import Mathlib.Data.Int.Interval
import Mathlib.Data.Set.Function
import UnimonoMoe.Host.Gate
import UnimonoMoe.Kernel.ExpertParallel
import UnimonoMoe.Lib.Loops

/-!
# What the load gate knows of an expert map

The expert-parallel branch of `process_weights_after_loading` looks at two numbers of the map: how
many entries are not negative, and the largest entry.  They keep every local id below the number
of local experts, but they do not see an id that occurs twice in place of a missing one.

`expert_map_canonical_iff` says that such a repetition is all that can be wrong: an accepted map
numbers its own experts bijectively exactly when no local id occurs twice.  Accepted maps without
repetitions that own every expert once are what the expert-parallel kernel asks for
(`expertPartition_of_accepted`).
-/

namespace UnimonoMoe

open Loops

namespace ExpertMap

/-- `expert_map[g]`. -/
def localId (emap : ExpertMap) (g : ℕ) : ℤ := emap.entries.getD g (-1)

/-- The global experts whose weights are resident. -/
def owned (emap : ExpertMap) : Set ℕ := {g | g < emap.entries.length ∧ 0 ≤ emap.localId g}

/-- On its non-negative entries the map is a bijection onto the local ids. -/
def Canonical (emap : ExpertMap) (localExperts : ℕ) : Prop :=
  Set.BijOn emap.localId emap.owned {l | 0 ≤ l ∧ l < (localExperts : ℤ)}

/-- No local id occurs twice. -/
def NoRepeat (emap : ExpertMap) : Prop :=
  emap.entries.Pairwise fun x y => 0 ≤ x → x ≠ y

instance (emap : ExpertMap) : Decidable emap.NoRepeat :=
  inferInstanceAs (Decidable (List.Pairwise _ _))

/-- The two numbers that the gate compares. -/
structure Counted (emap : ExpertMap) (localExperts : ℕ) : Prop where
  owned : emap.entries.countP (0 ≤ ·) = localExperts
  top : maxValue emap.entries = (localExperts : ℤ) - 1

variable {emap : ExpertMap} {localExperts g g' : ℕ}

/-- The local id of an expert is its entry. -/
lemma localId_eq (hg : g < emap.entries.length) : emap.localId g = emap.entries[g] := by
  simp [localId, hg]

/-- No slab is named twice when the map is injective on the owned experts. -/
lemma noRepeat_iff : emap.NoRepeat ↔ Set.InjOn emap.localId emap.owned := by
  unfold NoRepeat
  rw [List.pairwise_iff_getElem]
  constructor
  · rintro hpair g ⟨hg, hnonneg⟩ g' ⟨hg', hnonneg'⟩ heq
    rw [localId_eq hg] at hnonneg heq
    rw [localId_eq hg'] at hnonneg' heq
    rcases lt_trichotomy g g' with hlt | rfl | hgt
    · exact absurd heq (hpair g g' hg hg' hlt hnonneg)
    · rfl
    · exact absurd heq.symm (hpair g' g hg' hg hgt hnonneg')
  · intro hinj g g' hg hg' hlt hnonneg heq
    rw [← localId_eq hg] at hnonneg heq
    rw [← localId_eq hg'] at heq
    exact hlt.ne (hinj ⟨hg, hnonneg⟩ ⟨hg', heq ▸ hnonneg⟩ heq)

/-- The entries stay below the number of local experts. -/
lemma Counted.lt (h : emap.Counted localExperts) (hg : g < emap.entries.length) :
    emap.localId g < localExperts := by
  have hmax := (le_foldl_max id emap.entries (emap.entries.headD 0)).2 _ (List.getElem_mem hg)
  have htop := h.top
  rw [localId_eq hg]
  unfold maxValue at htop
  change emap.entries[g] ≤ emap.entries.foldl max (emap.entries.headD 0) at hmax
  omega

/-- The owned experts as a finite set. -/
def ownedFinset (emap : ExpertMap) : Finset ℕ :=
  (Finset.range emap.entries.length).filter fun g => 0 ≤ emap.localId g

/-- The owned experts as a finite set. -/
lemma coe_ownedFinset : (emap.ownedFinset : Set ℕ) = emap.owned := by
  ext g
  simp [ownedFinset, owned]

/-- The gate counts the owned experts. -/
lemma card_ownedFinset : emap.ownedFinset.card = emap.entries.countP (0 ≤ ·) := by
  have hentries : emap.entries = (List.range emap.entries.length).map emap.localId := by
    refine List.ext_getElem (by simp) fun g hg _ => ?_
    simp [localId_eq hg]
  calc emap.ownedFinset.card
      = (List.range emap.entries.length).countP fun g => decide (0 ≤ emap.localId g) := by
        rw [List.countP_eq_length_filter]
        rfl
    _ = ((List.range emap.entries.length).map emap.localId).countP (0 ≤ ·) := by
        rw [List.countP_map]
        rfl
    _ = emap.entries.countP (0 ≤ ·) := by rw [← hentries]

/-- As many entries as local ids, all of them in range: nothing is missing unless something occurs
twice. -/
theorem Counted.canonical_iff (h : emap.Counted localExperts) :
    emap.Canonical localExperts ↔ emap.NoRepeat := by
  rw [noRepeat_iff]
  constructor
  · exact fun hbij => hbij.injOn
  · intro hinj
    have hids : (Finset.Ico 0 (localExperts : ℤ) : Set ℤ) =
        {l | 0 ≤ l ∧ l < (localExperts : ℤ)} := Finset.coe_Ico 0 _
    have hmaps : Set.MapsTo emap.localId emap.ownedFinset (Finset.Ico 0 (localExperts : ℤ)) := by
      rw [coe_ownedFinset, hids]
      exact fun g hg => ⟨hg.2, h.lt hg.1⟩
    have hcard : (Finset.Ico 0 (localExperts : ℤ)).card ≤ emap.ownedFinset.card := by
      rw [card_ownedFinset, h.owned, Int.card_Ico]
      omega
    rw [← coe_ownedFinset] at hinj
    have hsurj := Finset.surjOn_of_injOn_of_card_le emap.localId hmaps hinj hcard
    rw [coe_ownedFinset] at hmaps hinj hsurj
    rw [hids] at hmaps hsurj
    exact ⟨hmaps, hinj, hsurj⟩

end ExpertMap

/-! ## The gate -/

section Gate

variable {geo : Geometry} {layer : MoELayer} {emap : ExpertMap}

/-- What the expert-parallel branch has checked of a map that it accepts. -/
lemma counted_of_epReason (hmap : layer.expertMap = some emap) (hep : layer.epNeeded = true)
    (haccept : epReason geo layer = none) :
    emap.entries.length = layer.globalNumExperts ∧ emap.Counted layer.localExperts := by
  unfold epReason at haccept
  rw [hep, hmap] at haccept
  cases hcap : truthy geo.epCapable with
  | false => simp [hcap] at haccept
  | true =>
    simp only [hcap, Bool.not_true, Bool.and_false, Bool.false_eq_true, if_false,
      if_true] at haccept
    split_ifs at haccept with hdtype hlength hcount
    obtain ⟨howned, htop⟩ := not_or.mp hcount
    exact ⟨not_not.mp hlength, not_not.mp howned, not_not.mp htop⟩

/-- For every binary and every layer whose map the expert-parallel branch of the load gate accepts:
on its non-negative entries the map is a bijection onto the local experts exactly when no local id
occurs twice in it. -/
theorem expert_map_canonical_iff (hmap : layer.expertMap = some emap)
    (hep : layer.epNeeded = true) (haccept : epReason geo layer = none) :
    emap.Canonical layer.localExperts ↔ emap.NoRepeat :=
  (counted_of_epReason hmap hep haccept).2.canonical_iff

/-- The maps that the gates of all ranks accept split the experts, if no rank repeats a local id
and every expert is resident on one rank. -/
theorem expertPartition_of_accepted {B : Build} {R : ℕ} {layers : ℕ → MoELayer}
    {maps : ℕ → ExpertMap} (hmap : ∀ r < R, (layers r).expertMap = some (maps r))
    (hep : ∀ r < R, (layers r).epNeeded = true) (haccept : ∀ r < R, epReason geo (layers r) = none)
    (hglobal : ∀ r < R, (layers r).globalNumExperts = B.numExperts)
    (hlocal : ∀ r < R, (layers r).localExperts = B.eLocal)
    (hrepeat : ∀ r < R, (maps r).NoRepeat)
    (howner : ∀ g < B.numExperts, ∃! r, r < R ∧ 0 ≤ (maps r).localId g) :
    ExpertPartition B R fun r => (maps r).localId := by
  have hlength : ∀ r < R, (maps r).entries.length = B.numExperts := fun r hr =>
    (counted_of_epReason (hmap r hr) (hep r hr) (haccept r hr)).1.trans (hglobal r hr)
  have hcanonical : ∀ r < R, (maps r).Canonical B.eLocal := fun r hr =>
    hlocal r hr ▸ (counted_of_epReason (hmap r hr) (hep r hr) (haccept r hr)).2.canonical_iff.mpr
      (hrepeat r hr)
  refine ⟨howner, fun r hr g hg => ?_, fun r hr g hg g' hg' hnonneg heq => ?_, fun r hr l hl => ?_⟩
  · exact hlocal r hr ▸ (counted_of_epReason (hmap r hr) (hep r hr) (haccept r hr)).2.lt
      (hlength r hr ▸ hg)
  · exact (hcanonical r hr).injOn ⟨hlength r hr ▸ hg, hnonneg⟩
      ⟨hlength r hr ▸ hg', heq ▸ hnonneg⟩ heq
  · obtain ⟨g, ⟨hg, _⟩, heq⟩ := (hcanonical r hr).surjOn
      (show (0 : ℤ) ≤ l ∧ (l : ℤ) < B.eLocal by omega)
    exact ⟨g, hlength r hr ▸ hg, heq⟩

end Gate

section Examples

/-- What the expert-parallel binary reports. -/
def qwenEPGeometry : Geometry :=
  { qwenGeometry with numExpertsLocal := some 64, epCapable := some 1, nUp := some 1024
                      nHalf := some 512 }

/-- A rank of an expert-parallel Qwen3.5 layer with this map. -/
def qwenEPLayer (emap : ExpertMap) : MoELayer :=
  { qwenLayer with localExperts := 64, nUp := 1024, nHalf := 512, expertMap := some emap
                   tpSize := 1, tpSize_of_ep := fun _ => rfl }

/-- The first rank of four. -/
def firstRankMap : ExpertMap where
  dtype := .int32
  entries := (List.range 64).map Nat.cast ++ List.replicate 192 (-1)

/-- Expert 1 is sent to slab 0 as well, and slab 1 is left out. -/
def repeatingMap : ExpertMap :=
  { firstRankMap with entries := firstRankMap.entries.set 1 0 }

/-- The map of the first of four ranks. -/
theorem expert_map_canonical_iff_firstRank :
    epReason qwenEPGeometry (qwenEPLayer firstRankMap) = none ∧ firstRankMap.Canonical 64 :=
  have haccept : epReason qwenEPGeometry (qwenEPLayer firstRankMap) = none := by decide +kernel
  ⟨haccept, (expert_map_canonical_iff rfl (by decide) haccept).mpr (by decide +kernel)⟩

/-- The gate enables the layer with the repeated id, whose map is no bijection. -/
theorem repeated_slab_enabled :
    loadGate true (some qwenEPGeometry) (qwenEPLayer repeatingMap) = true ∧
      ¬ repeatingMap.Canonical 64 := by
  refine ⟨by decide +kernel, fun hcanonical => ?_⟩
  have hzero : 0 ∈ repeatingMap.owned := ⟨by decide +kernel, by decide +kernel⟩
  have hone : 1 ∈ repeatingMap.owned := ⟨by decide +kernel, by decide +kernel⟩
  exact absurd (hcanonical.injOn hzero hone (by decide +kernel)) (by decide)

end Examples

end UnimonoMoe
