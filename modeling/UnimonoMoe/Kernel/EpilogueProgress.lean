import UnimonoMoe.Kernel.EpilogueSafety
import UnimonoMoe.Lib.Executions

/-!
# Progress of the fused epilogue

The converse direction of the facts behind safety: a rank that has executed its part of a barrier
has really raised the pad words of its peers (`Signalled`), a launch whose communication blocks
have all arrived has a block that found itself last (`exists_last`), and a launch that has been left
had its flag set.  With them every unsatisfied wait of the epilogue has somebody to wait for, in an
earlier launch or at a smaller stage (`behind_of_blocked`), so the waits can never be circular
(`fused_epilogue_progress`).
-/

namespace UnimonoMoe

open Epochs LaunchArgs

variable {B : Build} {world : ℕ} {V : Type*} [AddCommMonoid V] {L : Launches B}
  {part : ℕ → Fin world → ℕ → V} {m₀ : Mem world V} {c c' : EpilogueConfig B world V}
  {r r' s q : Fin world} {t t' : B.Thread} {i j : Instr world} {l : List (Instr world)}
  {n ch : ℕ}

/-! ## Pads that have been raised -/

/-- Rank `q` has raised its word of barrier `b` in rank `s`'s pad to launch `n`. -/
def Signalled (L : Launches B) (c : EpilogueConfig B world V) (n : ℕ) (q : Fin world)
    (b : RankBarrier) (s : Fin world) : Prop :=
  n ≤ c.mem.pads s (padWord world (b.slot (L.args n)) q)

/-- Pad words never decrease. -/
lemma pads_mono (hfresh : Fresh m₀) (h : (epilogue L part).Reachable m₀ c)
    (hstep : (epilogue L part).Step c c') (s q : Fin world) (slot : ℕ) :
    c.mem.pads s (padWord world slot q) ≤ c'.mem.pads s (padWord world slot q) := by
  cases hstep with
  | @fire r t i l hrest _ =>
    by_cases hit : ∃ b, i = .signal b s ∧ (c.reg r t).participates b ∧
        padWord world slot q = padWord world (b.slot (L.args (c.epoch r))) r
    · obtain ⟨b, rfl, hpart, hword⟩ := hit
      obtain ⟨rfl, hqr⟩ := padWord_inj q.isLt r.isLt hword
      obtain rfl := Fin.ext hqr
      have hle := (padInv hfresh h s q (b.slot (L.args (c.epoch q)))).le_epoch
      rw [fire_mem]
      change _ ≤ (effect L part c q t (.signal b s)).1.pads s _
      simp only [effect, hpart, if_true, write_self]
      rwa [seqEff_of_head hfresh h hrest (stage_loadSeq_lt_signal b s)]
    · rw [fire_mem]
      exact (effect_pads fun b hi hpart hw => hit ⟨b, hi, hpart, hw⟩).ge
  | launch => exact le_rfl

/-- A rank that has signalled stays so. -/
lemma Signalled.step {b : RankBarrier} (hfresh : Fresh m₀) (h : (epilogue L part).Reachable m₀ c)
    (hstep : (epilogue L part).Step c c') (hsig : Signalled L c n q b s) :
    Signalled L c' n q b s :=
  hsig.trans (pads_mono hfresh h hstep s q _)

/-- The signal of a thread that takes part in a barrier raises the word to the launch number. -/
lemma signalled_fire {b : RankBarrier} (hfresh : Fresh m₀) (h : (epilogue L part).Reachable m₀ c)
    (hrest : c.rest q t = .signal b s :: l) (hpart : (c.reg q t).participates b) :
    Signalled L ((epilogue L part).fire c q t (.signal b s) l) (c.epoch q) q b s := by
  unfold Signalled
  rw [fire_mem]
  change _ ≤ (effect L part c q t (.signal b s)).1.pads s _
  simp only [effect, hpart, if_true, write_self]
  exact (seqEff_of_head hfresh h hrest (stage_loadSeq_lt_signal b s)).ge

/-- A chunk signal that has been executed has raised its word for good. -/
lemma signalled_chunk {cb : ℕ} (hfresh : Fresh m₀) (h : (epilogue L part).Reachable m₀ c)
    (hmem : .signal (.chunk ch cb) s ∈ (epilogue L part).prog n q t)
    (hdone : Done c n q t (.signal (.chunk ch cb) s)) :
    Signalled L c n q (.chunk ch cb) s := by
  refine h.of_done (P := fun c => Signalled L c n q (.chunk ch cb) s) (mem_prog.mp hmem).1 hmem
    (fun _ _ hc hstep hP => hP.step hfresh hc hstep) ?_ hdone
  rintro c l hc rfl hrest _
  exact signalled_fire hfresh hc hrest rfl

/-- An exit signal that the last block has executed has raised its word. -/
lemma signalled_exit (hfresh : Fresh m₀) (h : (epilogue L part).Reachable m₀ c)
    (hmem : .signal .exit s ∈ (epilogue L part).prog (c.epoch q) q t)
    (hnot : .signal .exit s ∉ c.rest q t) (hlast : (c.reg q t).last) :
    Signalled L c (c.epoch q) q .exit s := by
  have hpos := (mem_prog.mp hmem).1
  refine h.of_done_epoch (epilogue_staged L part)
    (P := fun c' => (c'.reg q t).last → Signalled L c' (c.epoch q) q .exit s) hpos hmem
    ?_ ?_ ?_ rfl hnot hlast
  · intro c' l hc hepoch hrest _ hlast'
    rw [fire_last (by simp)] at hlast'
    rw [← hepoch]
    exact signalled_fire hfresh hc hrest hlast'
  · intro c' r' t' j l hc hepoch hnot' hrest henabled hP hlast'
    refine (hP ?_).step hfresh hc (Machine.Step.fire hrest henabled)
    rw [fire_last] at hlast'
    · exact hlast'
    · rintro ⟨rfl, rfl, rfl⟩
      rw [← hepoch] at hmem
      have harrive := Done.of_stage_lt (i := .arriveDone) (epilogue_staged L part) hc hmem
        (Or.inr ⟨rfl, hnot'⟩) (by simp [stage])
      exact harrive.not_mem rfl (by rw [hrest]; exact List.mem_cons_self)
  · intro c' r' hc hr hstep hP hlast'
    rw [launch_reg_of_ne c' r' (Ne.symm hr)] at hlast'
    exact (hP hlast').step hfresh hc hstep

/-- A flag that is set has all exit words of its rank raised. -/
lemma signalled_of_tpDoneFlag (hfresh : Fresh m₀) (h : (epilogue L part).Reachable m₀ c)
    (hpos : 0 < c.epoch q) (hflag : c.mem.tpDoneFlag q ≠ 0) (s : Fin world) :
    Signalled L c (c.epoch q) q .exit s := by
  induction h with
  | init => exact absurd hpos (Nat.lt_irrefl 0)
  | @step c c' hc hstep ih =>
    have hstep' := hstep
    cases hstep with
    | @fire r t i l hrest _ =>
      refine Signalled.step hfresh hc hstep' ?_
      by_cases hit : q = r ∧ i = .setDone ∧ (c.reg r t).last
      · obtain ⟨rfl, rfl, hlast⟩ := hit
        obtain ⟨_, hcomm, hlead⟩ := runs_of_head hc hrest
        have hmem : Instr.signal .exit s ∈ (epilogue L part).prog (c.epoch q) q t :=
          mem_prog.mpr ⟨hpos, hcomm, hlead⟩
        refine signalled_exit hfresh hc hmem ?_ hlast
        exact (done_of_head (epilogue_staged L part) hc hrest (by simp [stage])).not_mem rfl
      · refine ih hpos ?_
        rw [fire_mem] at hflag
        exact fun hzero => hflag ((effect_tpDoneFlag hit).trans hzero)
    | @launch r _ _ =>
      by_cases hr : q = r
      · subst hr
        exact absurd (by simp [epilogue, Mem.zeroWorkspace]) hflag
      · rw [launch_epoch_of_ne c r hr] at hpos ⊢
        refine (ih hpos ?_).step hfresh hc hstep'
        intro hzero
        apply hflag
        rw [launch_mem]
        change Function.update c.mem.tpDoneFlag r 0 q = 0
        rwa [Function.update_of_ne hr]

/-- A rank that has left launch `n` has raised all its exit words to it. -/
lemma signalled_of_epoch_lt (hfresh : Fresh m₀) (h : (epilogue L part).Reachable m₀ c)
    (hn : 0 < n) (hlt : n < c.epoch q) (s : Fin world) : Signalled L c n q .exit s := by
  have hblock : (L.args n).ncomp B < B.gridSize := by
    have := (L.admitted n).ncomm_pos
    have := (L.admitted n).ncomm_lt
    unfold ncomp
    omega
  let t₀ : B.Thread := B.lead ⟨(L.args n).ncomp B, hblock⟩
  have hcomm : ¬ Computes (L.args n) t₀ := Nat.lt_irrefl _
  have hmem : Instr.awaitDone ∈ (epilogue L part).prog n q t₀ := mem_prog.mpr ⟨hn, hcomm, rfl⟩
  refine h.of_done_guard (P := fun c => Signalled L c n q .exit s) hn hmem
    (fun _ _ hc hstep hP => hP.step hfresh hc hstep) ?_ (Or.inl hlt)
  rintro c l hc rfl hrest hguard
  rcases hguard with hlast | hflag
  · have hsignal : Instr.signal .exit s ∈ (epilogue L part).prog (c.epoch q) q t₀ :=
      mem_prog.mpr ⟨hn, hcomm, rfl⟩
    refine signalled_exit hfresh hc hsignal ?_ hlast
    exact (done_of_head (epilogue_staged L part) hc hrest (by simp [stage])).not_mem rfl
  · exact signalled_of_tpDoneFlag hfresh hc hn hflag s

/-! ## The last block -/

/-- When all communication blocks of a rank have arrived, one of them found itself last. -/
lemma exists_last (h : (epilogue L part).Reachable m₀ c) (hpos : 0 < c.epoch r)
    (hcard : ((epilogue L part).fired c r .arriveDone).card = (L.args (c.epoch r)).ncomm) :
    ∃ t ∈ (epilogue L part).fired c r .arriveDone, (c.reg r t).last := by
  induction h with
  | init => exact absurd hpos (Nat.lt_irrefl 0)
  | @step c c' hc hstep ih =>
    cases hstep with
    | @fire r' t i l hrest _ =>
      by_cases hit : r' = r ∧ i = .arriveDone
      · obtain ⟨rfl, rfl⟩ := hit
        obtain ⟨hnotfired, hinsert⟩ := fired_fire_self (epilogue_staged L part) hc hrest
        rw [hinsert, Finset.card_insert_of_notMem hnotfired, fire_epoch] at hcard
        refine ⟨t, hinsert ▸ Finset.mem_insert_self _ _, ?_⟩
        rw [fire_reg_self]
        change (c.mem.tpDoneLocal r' == (L.args (c.epoch r')).ncomm - 1) = true
        rw [tpDoneLocal_eq hc hpos, beq_iff_eq]
        omega
      · have hsame := fired_fire_of_ne (M := epilogue L part) (i := .arriveDone) (r := r) hrest hit
        rw [hsame] at hcard ⊢
        obtain ⟨t₀, ht₀, hlast⟩ := ih hpos hcard
        refine ⟨t₀, ht₀, ?_⟩
        rw [fire_last]
        · exact hlast
        · rintro ⟨rfl, _, rfl⟩
          exact hit ⟨rfl, rfl⟩
    | @launch r' _ _ =>
      by_cases hr : r = r'
      · subst hr
        have hadm := (L.admitted (((epilogue L part).launch c r).epoch r)).ncomm_pos
        rw [← hcard] at hadm
        obtain ⟨t₀, ht₀⟩ := Finset.card_pos.mp hadm
        have hnot := (mem_fired.mp ht₀).2
        rw [launch_rest_self] at hnot
        have hprog := (mem_fired.mp ht₀).1
        rw [launch_epoch_self] at hprog
        exact absurd hprog hnot
      · have hsame : (epilogue L part).fired ((epilogue L part).launch c r') r .arriveDone =
            (epilogue L part).fired c r .arriveDone := by
          ext t
          rw [mem_fired, mem_fired, launch_epoch_of_ne c r' hr, launch_rest_of_ne c r' hr]
        rw [launch_epoch_of_ne c r' hr] at hpos hcard
        rw [hsame] at hcard ⊢
        obtain ⟨t₀, ht₀, hlast⟩ := ih hpos hcard
        exact ⟨t₀, ht₀, by rwa [launch_reg_of_ne c r' hr]⟩

/-- Either some communication block of a rank has not arrived yet, or one found itself last. -/
lemma exists_not_arrived_or_last (h : (epilogue L part).Reachable m₀ c) (hpos : 0 < c.epoch r) :
    (∃ t, .arriveDone ∈ c.rest r t) ∨
      ∃ t, ¬ Computes (L.args (c.epoch r)) t ∧ IsLead t ∧ (c.reg r t).last := by
  by_cases hall : ∃ t, Instr.arriveDone ∈ c.rest r t
  · exact Or.inl hall
  · right
    have hfired : (epilogue L part).fired c r .arriveDone =
        commLeads B (L.args (c.epoch r)) := by
      ext t
      rw [mem_fired, commLeads, Finset.mem_filter]
      constructor
      · rintro ⟨hmem, _⟩
        obtain ⟨_, hcomm, hlead⟩ := mem_prog.mp hmem
        exact ⟨Finset.mem_univ _, hcomm, hlead⟩
      · rintro ⟨_, hcomm, hlead⟩
        exact ⟨mem_prog.mpr ⟨hpos, hcomm, hlead⟩, fun hin => hall ⟨t, hin⟩⟩
    obtain ⟨t, ht, hlast⟩ := exists_last h hpos
      (by rw [hfired, card_commLeads (L.admitted _)])
    rw [hfired, commLeads, Finset.mem_filter] at ht
    exact ⟨t, ht.2.1, ht.2.2, hlast⟩

/-! ## Every unsatisfied wait has somebody to wait for -/

/-- The grid barriers are alone in their stages. -/
lemma eq_of_stage_eq_syncGrid {k : ℕ} (hk : k < Build.numBarrierSites)
    (heq : stage B i = stage B (.syncGrid k : Instr world)) : i = .syncGrid k := by
  unfold Build.numBarrierSites at hk
  rcases i with _ | _ | k' | _ | _ | site | site | _ | _ | b | b | _ | _ | _ | _ | _ | _
  case syncGrid =>
    simp only [stage] at heq
    congr
    omega
  case fenceSystem => cases site <;> simp only [stage, siteStage, finalStage] at heq <;> omega
  case syncThreads => cases site <;> simp only [stage, siteStage, finalStage] at heq <;> omega
  case signal => cases b <;> simp only [stage, finalStage] at heq <;> omega
  case await => cases b <;> simp only [stage, finalStage] at heq <;> omega
  all_goals simp only [stage, finalStage] at heq; omega

/-- The `__syncthreads` of a thread are alone in their stages. -/
lemma eq_of_stage_eq_syncThreads {a : LaunchArgs} {site : Site} (ha : Admitted B a)
    (hi : Runs a r t i) (hj : Runs a r t (.syncThreads site))
    (heq : stage B i = stage B (.syncThreads site : Instr world)) : i = .syncThreads site := by
  have hle := ha.nchunk_le
  rcases i with _ | _ | k | _ | _ | site' | site' | _ | _ | b | b | _ | _ | _ | _ | _ | _
  case syncGrid =>
    have hk : k < 4 := hi
    cases site <;> simp only [stage, siteStage, finalStage] at heq <;> omega
  case fenceSystem =>
    cases site <;> cases site' <;> simp only [stage, siteStage, finalStage, Runs] at heq hi hj <;>
      omega
  case syncThreads =>
    cases site <;> cases site' <;> simp only [stage, siteStage, finalStage, Runs] at heq hi hj <;>
      first | rfl | omega | (congr; omega)
  case signal =>
    cases site <;> cases b <;> simp only [stage, siteStage, finalStage, Runs] at heq hi hj <;>
      omega
  case await =>
    cases site <;> cases b <;> simp only [stage, siteStage, finalStage, Runs] at heq hi hj <;>
      omega
  all_goals
    cases site <;> simp only [stage, siteStage, finalStage, Runs] at heq hi hj <;> omega

/-- The last block has set the flag once it is past the store. -/
lemma tpDoneFlag_of_setDone (h : (epilogue L part).Reachable m₀ c)
    (hmem : .setDone ∈ (epilogue L part).prog (c.epoch r) r t) (hnot : .setDone ∉ c.rest r t)
    (hlast : (c.reg r t).last) : c.mem.tpDoneFlag r ≠ 0 := by
  refine h.of_done_epoch (epilogue_staged L part)
    (P := fun c' => (c'.reg r t).last → c'.mem.tpDoneFlag r ≠ 0) (mem_prog.mp hmem).1 hmem
    ?_ ?_ ?_ rfl hnot hlast
  · intro c' l hc _ hrest _ hlast'
    rw [fire_last (by simp)] at hlast'
    rw [fire_mem]
    change (effect L part c' r t .setDone).1.tpDoneFlag r ≠ 0
    simp [effect, hlast']
  · intro c' r' t' j l hc hepoch hnot' hrest _ hP hlast'
    have hlast : (c'.reg r t).last := by
      rwa [fire_last] at hlast'
      rintro ⟨rfl, rfl, rfl⟩
      rw [← hepoch] at hmem
      have harrive := Done.of_stage_lt (i := .arriveDone) (epilogue_staged L part) hc hmem
        (Or.inr ⟨rfl, hnot'⟩) (by simp [stage])
      exact harrive.not_mem rfl (by rw [hrest]; exact List.mem_cons_self)
    rw [fire_mem]
    change (effect L part c' r' t' j).1.tpDoneFlag r ≠ 0
    by_cases hit : r = r' ∧ j = .setDone ∧ (c'.reg r' t').last
    · obtain ⟨rfl, rfl, hset⟩ := hit
      simp [effect, hset]
    · rw [effect_tpDoneFlag hit]
      exact hP hlast
  · intro c' r' _ hr _ hP hlast'
    rw [launch_reg_of_ne c' r' (Ne.symm hr)] at hlast'
    rw [launch_mem]
    change Function.update c'.mem.tpDoneFlag r' 0 r ≠ 0
    rw [Function.update_of_ne (Ne.symm hr)]
    exact hP hlast'

/-- A barrier that holds a thread up waits for a thread at a smaller stage. -/
lemma behind_of_not_arrived (h : (epilogue L part).Reachable m₀ c) (hnot : ¬ Arrived c r t' j)
    (halone : ∀ i, Runs (L.args (c.epoch r)) r t' i → Runs (L.args (c.epoch r)) r t' j →
      stage B i = stage B j → i = j) :
    (epilogue L part).Behind (stage B) c r (stage B j) := by
  have hj := (mem_prog.mp (h.mem_prog (List.mem_of_mem_tail (not_not.mp hnot)))).2
  exact Machine.Behind.of_not_arrived (epilogue_staged L part) h hnot fun i hi heq =>
    halone i (mem_prog.mp hi).2 hj heq

/-- An unsatisfied wait for the arrival count of a chunk waits for a compute block. -/
lemma behind_of_awaitReady (h : (epilogue L part).Reachable m₀ c)
    (hrest : c.rest r t = .awaitReady ch :: l)
    (hcount : c.mem.tpReady r ch < (L.args (c.epoch r)).ncomp B) :
    (epilogue L part).Behind (stage B) c r (stage B (.awaitReady ch : Instr world)) := by
  obtain ⟨hpos, _, _, hch⟩ := runs_of_head h hrest
  have hmissing : ∃ t', Instr.arriveReady ch ∈ c.rest r t' := by
    by_contra hnone
    have hfired : computeLeads B (L.args (c.epoch r)) ⊆
        (epilogue L part).fired c r (.arriveReady ch) := by
      intro t' ht'
      obtain ⟨_, hcomp, hlead⟩ := Finset.mem_filter.mp ht'
      exact mem_fired.mpr ⟨mem_prog.mpr ⟨hpos, hcomp, hlead, hch⟩, fun hin => hnone ⟨t', hin⟩⟩
    have hcard := Finset.card_le_card hfired
    rw [card_computeLeads, ← tpReady_eq h hpos] at hcard
    omega
  obtain ⟨t', ht'⟩ := hmissing
  exact Machine.Behind.of_mem_rest (epilogue_staged L part) h rfl ht' (by simp [stage])

/-- An unsatisfied wait on a pad word waits for the rank that has not raised it. -/
lemma behind_of_await {b : RankBarrier} (hfresh : Fresh m₀) (h : (epilogue L part).Reachable m₀ c)
    (hrest : c.rest r t = .await b s :: l) (hnot : ¬ Signalled L c (c.epoch r) s b r) :
    (epilogue L part).Behind (stage B) c r (stage B (.await b s : Instr world)) := by
  obtain ⟨hpos, hruns⟩ := runs_of_head h hrest
  rcases Nat.lt_trichotomy (c.epoch s) (c.epoch r) with hlt | heq | hgt
  · exact Machine.Behind.of_epoch_lt h hlt
  · have hsignal_lt := stage_signal_lt_await (B := B) b r s
    cases b with
    | chunk ch cb =>
      have hmem : Instr.signal (.chunk ch cb) r ∈ (epilogue L part).prog (c.epoch r) s t :=
        mem_prog.mpr ⟨hpos, hruns⟩
      by_cases hin : Instr.signal (.chunk ch cb) r ∈ c.rest s t
      · exact Machine.Behind.of_mem_rest (epilogue_staged L part) h heq hin hsignal_lt
      · exact absurd (signalled_chunk hfresh h hmem (Or.inr ⟨heq.symm, hin⟩)) hnot
    | exit =>
      have hpos' : 0 < c.epoch s := by omega
      rcases exists_not_arrived_or_last h hpos' with ⟨t', hin⟩ | ⟨t', hcomm, hlead, hlast⟩
      · exact Machine.Behind.of_mem_rest (epilogue_staged L part) h heq hin (by simp [stage])
      · by_cases hin : Instr.signal .exit r ∈ c.rest s t'
        · exact Machine.Behind.of_mem_rest (epilogue_staged L part) h heq hin hsignal_lt
        · have hmem : Instr.signal .exit r ∈ (epilogue L part).prog (c.epoch s) s t' :=
            mem_prog.mpr ⟨hpos', hcomm, hlead⟩
          exact absurd (heq ▸ signalled_exit hfresh h hmem hin hlast) hnot
  · cases b with
    | chunk ch cb =>
      have hmem : Instr.signal (.chunk ch cb) r ∈ (epilogue L part).prog (c.epoch r) s t :=
        mem_prog.mpr ⟨hpos, hruns⟩
      exact absurd (signalled_chunk hfresh h hmem (Or.inl hgt)) hnot
    | exit => exact absurd (signalled_of_epoch_lt hfresh h hpos hgt r) hnot

/-- An unsatisfied wait for the flag waits for a block of the same rank. -/
lemma behind_of_awaitDone (h : (epilogue L part).Reachable m₀ c)
    (hrest : c.rest r t = .awaitDone :: l) (hflag : c.mem.tpDoneFlag r = 0) :
    (epilogue L part).Behind (stage B) c r (stage B (.awaitDone : Instr world)) := by
  have hpos := (runs_of_head h hrest).1
  rcases exists_not_arrived_or_last h hpos with ⟨t', hin⟩ | ⟨t', hcomm, hlead, hlast⟩
  · exact Machine.Behind.of_mem_rest (epilogue_staged L part) h rfl hin (by simp [stage])
  · have hmem : Instr.setDone ∈ (epilogue L part).prog (c.epoch r) r t' :=
      mem_prog.mpr ⟨hpos, hcomm, hlead⟩
    by_cases hin : Instr.setDone ∈ c.rest r t'
    · exact Machine.Behind.of_mem_rest (epilogue_staged L part) h rfl hin (by simp [stage])
    · exact absurd hflag (tpDoneFlag_of_setDone h hmem hin hlast)

/-- Every unsatisfied wait has somebody to wait for: a rank in an earlier launch, or a thread at a
smaller stage of the same launch. -/
theorem behind_of_blocked (hfresh : Fresh m₀) (h : (epilogue L part).Reachable m₀ c)
    (hrest : c.rest r t = i :: l) (hblocked : ¬ passes L c r t i) :
    (epilogue L part).Behind (stage B) c r (stage B i) := by
  obtain ⟨hpos, hruns⟩ := runs_of_head h hrest
  cases i with
  | syncGrid k =>
    obtain ⟨t', ht'⟩ := not_forall.mp hblocked
    exact behind_of_not_arrived h ht' fun _ _ _ heq => eq_of_stage_eq_syncGrid hruns heq
  | syncThreads site =>
    obtain ⟨t', ht'⟩ := not_forall.mp hblocked
    obtain ⟨_, hnot⟩ := Classical.not_imp.mp ht'
    exact behind_of_not_arrived h hnot fun _ hi hj heq =>
      eq_of_stage_eq_syncThreads (L.admitted _) hi hj heq
  | awaitReady ch => exact behind_of_awaitReady h hrest (Nat.lt_of_not_le hblocked)
  | await b s =>
    obtain ⟨_, hlt⟩ := Classical.not_imp.mp hblocked
    refine behind_of_await hfresh h hrest fun hsig => hlt ?_
    rwa [seqEff_of_head hfresh h hrest ((stage_loadSeq_lt_signal b s).trans
      (stage_signal_lt_await b s s))]
  | awaitDone =>
    obtain ⟨_, hflag⟩ := not_or.mp hblocked
    exact behind_of_awaitDone h hrest (not_not.mp hflag)
  | _ => exact absurd trivial hblocked

/-- Some thread can execute its next operation, or a rank is about to start its next launch. -/
lemma exists_passes_or_due (hfresh : Fresh m₀) (h : (epilogue L part).Reachable m₀ c)
    (hrun : ∃ r t, c.rest r t ≠ []) :
    (∃ r t i l, c.rest r t = i :: l ∧ passes L c r t i) ∨
      ∃ r, c.epoch r < L.count ∧ ∀ t, c.rest r t = [] :=
  exists_enabled_of_stage (M := epilogue L part) (stage B)
    (fun _ _ _ _ hrest hblocked => behind_of_blocked hfresh h hrest hblocked) hrun

/-- The fused epilogue never gets stuck: in every configuration reachable from zero signal pads
and zero sequence counters in which a thread has not finished its launch, some thread can execute
its next operation, or a rank is about to start its next launch and its first block can execute
the first operation of that launch. -/
theorem fused_epilogue_progress (hfresh : Fresh m₀) (h : (epilogue L part).Reachable m₀ c)
    (hrun : ∃ r t, c.rest r t ≠ []) :
    (∃ r t i l, c.rest r t = i :: l ∧ passes L c r t i) ∨
      ∃ r, c.epoch r < L.count ∧ (∀ t, c.rest r t = []) ∧
        ∃ t i l, ((epilogue L part).launch c r).rest r t = i :: l ∧
          passes L ((epilogue L part).launch c r) r t i := by
  rcases exists_passes_or_due hfresh h hrun with hpasses | ⟨r, hmore, hidle⟩
  · exact Or.inl hpasses
  · refine Or.inr ⟨r, hmore, hidle, firstThread B, .bumpSeq, ?_⟩
    obtain ⟨l, hl⟩ : ∃ l, blockProgram (L.args (c.epoch r + 1)) r (firstThread B) =
        .bumpSeq :: l := ⟨_, rfl⟩
    refine ⟨l, ?_, trivial⟩
    rw [launch_rest_self, ← hl]
    rfl

/-- The first rank has started and can go on. -/
theorem fused_epilogue_progress_firstStarted :
    (∃ r t i l, firstStarted.rest r t = i :: l ∧ passes twoLaunches firstStarted r t i) ∨
      ∃ r, firstStarted.epoch r < twoLaunches.count ∧ (∀ t, firstStarted.rest r t = []) ∧
        ∃ t i l, (twoRanks.launch firstStarted r).rest r t = i :: l ∧
          passes twoLaunches (twoRanks.launch firstStarted r) r t i :=
  fused_epilogue_progress fresh_zeroMem firstStarted_reachable
    ⟨0, firstThread deepseekTP, by
      unfold firstStarted
      rw [launch_rest_self]
      exact List.cons_ne_nil _ _⟩

/-- A run that cannot go on has finished every launch on every rank. -/
theorem finished_of_stuck (hfresh : Fresh m₀) (h : (epilogue L part).Reachable m₀ c)
    (hstuck : ∀ c', ¬ (epilogue L part).Step c c') (r : Fin world) :
    c.epoch r = L.count ∧ ∀ t, c.rest r t = [] := by
  have hidle : ∀ r t, c.rest r t = [] := by
    intro r t
    by_contra hne
    rcases exists_passes_or_due hfresh h ⟨r, t, hne⟩ with
      ⟨r, t, i, l, hrest, hpass⟩ | ⟨r, hmore, hidle⟩
    · exact hstuck _ (Machine.Step.fire hrest hpass)
    · exact hstuck _ (Machine.Step.launch hmore hidle)
  refine ⟨(h.epoch_le r).antisymm ?_, hidle r⟩
  by_contra hlt
  exact hstuck _ (Machine.Step.launch (Nat.lt_of_not_le hlt) (hidle r))

/-- The two launches of the DeepSeek build come to an end on both ranks. -/
lemma exists_twoRanks_finished : ∃ c, twoRanks.Reachable (zeroMem 2 ℕ) c ∧
    ∀ r, c.epoch r = twoLaunches.count ∧ ∀ t, c.rest r t = [] := by
  have hlive : ∀ c, twoRanks.Reachable (zeroMem 2 ℕ) c → (∃ r, twoRanks.Unfinished c r) →
      ∃ c', twoRanks.Step c c' := by
    rintro c hc ⟨r, hr⟩
    by_contra hstuck
    obtain ⟨hepoch, hidle⟩ := finished_of_stuck fresh_zeroMem hc (not_exists.mp hstuck) r
    rcases hr with hlt | ⟨t, hne⟩
    · exact hlt.ne hepoch
    · exact hne (hidle t)
  obtain ⟨c, hc, hfinished⟩ := Machine.exists_finished hlive
  exact ⟨c, hc, fun r => hc.of_not_unfinished (hfinished r)⟩

/-- Safety in the middle of the second launch, with a thread about to reduce the first unit of the
output. -/
theorem fused_epilogue_safe_reducing : ∃ c : EpilogueConfig deepseekTP 2 ℕ,
    (∃ r t ch l, c.epoch r = 2 ∧ c.rest r t = .ldReduce ch 0 :: l) ∧
    EpilogueSafe twoLaunches (fun n r u => n + r + u) c := by
  obtain ⟨c, hc, hfinished⟩ := exists_twoRanks_finished
  obtain ⟨⟨r, t, ch⟩, hmem, -⟩ := exists_unique_reduction (L := twoLaunches) (n := 2) (u := 0)
    (fun n (r : Fin 2) u => n + r + u) (by norm_num) (by decide) (by norm_num) (by decide)
  have hran : twoRanks.Ran c 2 r t (.ldReduce ch 0) :=
    .of_finished ((hfinished r).2 t) (hfinished r).1.ge hmem
  obtain ⟨c', hc', hepoch, ⟨l, hrest⟩, -⟩ := hran.exists_head (epilogue_staged _ _) hc
  exact ⟨c', ⟨r, t, ch, l, hepoch, hrest⟩,
    fused_epilogue_safe (by norm_num) (by decide) fresh_zeroMem hc'⟩

end UnimonoMoe
