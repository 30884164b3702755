import UnimonoMoe.Kernel.Epilogue
import Mathlib.Data.Fintype.Fin

/-!
# Safety of the fused epilogue

The facts that the counters, pads and flags of the epilogue carry, each derived from the
operations that write them.  They are stated through `Done`, "has been executed in launch `n`":

* the sequence a thread uses in launch `n` is `n` (`seqEff_eq`);
* a communication block past its wait for chunk `ch` has all stores of its rank to the chunk behind
  it (`Stored`, `stored_of_awaitReady`);
* a pad word at least `n` vouches for its writer in launch `n` (`Released`, `released_of_pads`);
  a word left over from an earlier launch is too small, and a word from a later launch is only
  written when the earlier one is over;
* a block past its wait for the flag has all reductions of all ranks behind it
  (`allArrived_of_awaitDone`).

`fused_epilogue_safe` assembles them.
-/

namespace UnimonoMoe

open Epochs LaunchArgs

variable {B : Build} {world : ℕ} {V : Type*} [AddCommMonoid V] {L : Launches B}
  {part : ℕ → Fin world → ℕ → V} {m₀ : Mem world V} {c c' : EpilogueConfig B world V}
  {r r' s : Fin world} {t t' : B.Thread} {i : Instr world} {l : List (Instr world)} {n ch u : ℕ}

/-! ## Programs and launches -/

/-- The memory before the first launch: signal pads and sequence counters are zero.  Workspaces
and output buffers may hold anything. -/
structure Fresh (m : Mem world V) : Prop where
  pads_zero : ∀ r w, m.pads r w = 0
  seqctr_zero : ∀ r, m.tpSeqctr r = 0

/-- Memory that holds zero everywhere. -/
def zeroMem (world : ℕ) (V : Type*) [Zero V] : Mem world V :=
  ⟨fun _ _ => 0, fun _ => 0, fun _ => 0, fun _ => 0, fun _ => 0, fun _ _ => 0, fun _ _ => 0⟩

/-- Zeroed memory is fresh. -/
lemma fresh_zeroMem : Fresh (zeroMem world V) := ⟨fun _ _ => rfl, fun _ => rfl⟩

/-- The program of a launch has the instructions that the thread runs. -/
lemma mem_prog : i ∈ (epilogue L part).prog n r t ↔ 0 < n ∧ Runs (L.args n) r t i := by
  unfold epilogue
  by_cases hn : n = 0
  · simp [hn]
  · simp only [hn, if_false, mem_blockProgram]
    exact ⟨fun h => ⟨Nat.pos_of_ne_zero hn, h⟩, fun h => h.2⟩

/-- The next operation of a thread is one that it runs in the current launch. -/
lemma runs_of_head (h : (epilogue L part).Reachable m₀ c) (hrest : c.rest r t = i :: l) :
    0 < c.epoch r ∧ Runs (L.args (c.epoch r)) r t i :=
  mem_prog.mp (h.mem_prog (by rw [hrest]; exact List.mem_cons_self))

/-- The launches of a session are counted in 32 bits. -/
lemma epoch_lt (h : (epilogue L part).Reachable m₀ c) (r : Fin world) : c.epoch r < 2 ^ 32 :=
  (h.epoch_le r).trans_lt L.count_lt

/-- Thread 0 of block 0, which publishes the sequence. -/
def firstThread (B : Build) : B.Thread := B.lead ⟨0, B.gridSize_pos⟩

/-- The leader of block 0 is the first thread. -/
lemma eq_firstThread (hblock : (t.1 : ℕ) = 0) (hlead : IsLead t) : t = firstThread B :=
  Prod.ext (Fin.ext hblock) (Fin.ext hlead)

/-- The leader of a block leads. -/
@[simp] lemma isLead_lead (b : Fin B.gridSize) : IsLead (B.lead b) := rfl

/-- The leader of a block is in it. -/
@[simp] lemma lead_fst (b : Fin B.gridSize) : (B.lead b).1 = b := rfl

/-- A block has one leader. -/
lemma eq_lead (hlead : IsLead t) : t = B.lead t.1 := Prod.ext rfl (Fin.ext hlead)

/-! ## What an operation leaves alone -/

/-- Only `bumpSeq` on the rank itself changes its sequence counter. -/
lemma effect_tpSeqctr (h : ¬ (r' = r ∧ i = .bumpSeq)) :
    (effect L part c r t i).1.tpSeqctr r' = c.mem.tpSeqctr r' := by
  cases i with
  | bumpSeq =>
    have hr : r' ≠ r := fun hr => h ⟨hr, rfl⟩
    simp [effect, hr]
  | signal b s => simp only [effect]; split <;> rfl
  | setDone => simp only [effect]; split <;> rfl
  | _ => rfl

/-- Only `publishSeq` changes the published sequence number. -/
lemma effect_tpSeqPub (h : ¬ (r' = r ∧ i = .publishSeq)) :
    (effect L part c r t i).1.tpSeqPub r' = c.mem.tpSeqPub r' := by
  cases i with
  | publishSeq =>
    have hr : r' ≠ r := fun hr => h ⟨hr, rfl⟩
    simp [effect, hr]
  | signal b s => simp only [effect]; split <;> rfl
  | setDone => simp only [effect]; split <;> rfl
  | _ => rfl

/-- Only an arrival at the chunk changes its ready counter. -/
lemma effect_tpReady (h : ¬ (r' = r ∧ i = .arriveReady ch)) :
    (effect L part c r t i).1.tpReady r' ch = c.mem.tpReady r' ch := by
  cases i with
  | arriveReady ch' =>
    refine write_of_ne ?_
    rintro ⟨rfl, rfl⟩
    exact h ⟨rfl, rfl⟩
  | signal b s => simp only [effect]; split <;> rfl
  | setDone => simp only [effect]; split <;> rfl
  | _ => rfl

/-- Only `arriveDone` changes the counter of the finished blocks. -/
lemma effect_tpDoneLocal (h : ¬ (r' = r ∧ i = .arriveDone)) :
    (effect L part c r t i).1.tpDoneLocal r' = c.mem.tpDoneLocal r' := by
  cases i with
  | arriveDone =>
    have hr : r' ≠ r := fun hr => h ⟨hr, rfl⟩
    simp [effect, hr]
  | signal b s => simp only [effect]; split <;> rfl
  | setDone => simp only [effect]; split <;> rfl
  | _ => rfl

/-- Only the last block to arrive sets the flag. -/
lemma effect_tpDoneFlag (h : ¬ (r' = r ∧ i = .setDone ∧ (c.reg r t).last)) :
    (effect L part c r t i).1.tpDoneFlag r' = c.mem.tpDoneFlag r' := by
  cases i with
  | setDone =>
    simp only [effect]
    split_ifs with hlast
    · have hr : r' ≠ r := fun hr => h ⟨hr, rfl, hlast⟩
      simp [hr]
    · rfl
  | signal b s => simp only [effect]; split <;> rfl
  | _ => rfl

/-- Only a signal to the rank writes its pads, and only the word of the sender in the slot. -/
lemma effect_pads {w : ℕ} (h : ∀ b, i = .signal b r' → (c.reg r t).participates b →
    w ≠ padWord world (b.slot (L.args (c.epoch r))) r) :
    (effect L part c r t i).1.pads r' w = c.mem.pads r' w := by
  cases i with
  | signal b s =>
    simp only [effect]
    split_ifs with hpart
    · refine write_of_ne ?_
      rintro ⟨rfl, hw⟩
      exact h b rfl hpart hw
    · rfl
  | setDone => simp only [effect]; split <;> rfl
  | _ => rfl

/-- Only `bumpSeq` of the thread itself changes its `seq`. -/
lemma fire_seq (h : ¬ (r' = r ∧ t' = t ∧ i = .bumpSeq)) :
    (((epilogue L part).fire c r t i l).reg r' t').seq = (c.reg r' t').seq := by
  by_cases hrt : r' = r ∧ t' = t
  · obtain ⟨rfl, rfl⟩ := hrt
    have hi : i ≠ .bumpSeq := fun hi => h ⟨rfl, rfl, hi⟩
    rw [fire_reg_self]
    cases i with
    | bumpSeq => exact absurd rfl hi
    | signal b s => simp only [epilogue, effect]; split <;> rfl
    | setDone => simp only [epilogue, effect]; split <;> rfl
    | _ => rfl
  · rw [fire_reg_of_ne c r t i l hrt]

/-- Only `loadSeq` changes the sequence number that a thread works with. -/
lemma fire_seqEff (h : ¬ (r' = r ∧ t' = t ∧ i = .loadSeq)) :
    (((epilogue L part).fire c r t i l).reg r' t').seqEff = (c.reg r' t').seqEff := by
  by_cases hrt : r' = r ∧ t' = t
  · obtain ⟨rfl, rfl⟩ := hrt
    have hi : i ≠ .loadSeq := fun hi => h ⟨rfl, rfl, hi⟩
    rw [fire_reg_self]
    cases i with
    | loadSeq => exact absurd rfl hi
    | signal b s => simp only [epilogue, effect]; split <;> rfl
    | setDone => simp only [epilogue, effect]; split <;> rfl
    | _ => rfl
  · rw [fire_reg_of_ne c r t i l hrt]

/-- Only `arriveDone` decides whether a thread has come last. -/
lemma fire_last (h : ¬ (r' = r ∧ t' = t ∧ i = .arriveDone)) :
    (((epilogue L part).fire c r t i l).reg r' t').last = (c.reg r' t').last := by
  by_cases hrt : r' = r ∧ t' = t
  · obtain ⟨rfl, rfl⟩ := hrt
    have hi : i ≠ .arriveDone := fun hi => h ⟨rfl, rfl, hi⟩
    rw [fire_reg_self]
    cases i with
    | arriveDone => exact absurd rfl hi
    | signal b s => simp only [epilogue, effect]; split <;> rfl
    | setDone => simp only [epilogue, effect]; split <;> rfl
    | _ => rfl
  · rw [fire_reg_of_ne c r t i l hrt]

/-! ## The launch sequence -/

/-- A counter below the limit goes up by one. -/
lemma atomicInc_of_lt {w : ℕ} (h : w + 1 < 2 ^ 32) : atomicInc w = w + 1 := Nat.mod_eq_of_lt h

/-- The sequence counter of a rank counts its launches. -/
lemma seqctr_eq (hfresh : Fresh m₀) (h : (epilogue L part).Reachable m₀ c) (r : Fin world) :
    c.mem.tpSeqctr r =
      if .bumpSeq ∈ c.rest r (firstThread B) then c.epoch r - 1 else c.epoch r := by
  induction h with
  | init => simpa [Machine.init] using hfresh.seqctr_zero r
  | @step c c' hc hstep ih =>
    cases hstep with
    | @fire r' t i l hrest _ =>
      by_cases hit : r = r' ∧ i = .bumpSeq
      · obtain ⟨rfl, rfl⟩ := hit
        obtain ⟨hpos, hblock, hlead⟩ := runs_of_head hc hrest
        obtain rfl := eq_firstThread hblock hlead
        have hbefore : Instr.bumpSeq ∈ c.rest r (firstThread B) := by
          rw [hrest]; exact List.mem_cons_self
        have hafter := (done_fire (epilogue_staged L part) hc hrest).not_mem rfl
        rw [if_neg hafter]
        rw [if_pos hbefore] at ih
        have hlt := epoch_lt hc r
        change Function.update c.mem.tpSeqctr r (atomicInc (c.mem.tpSeqctr r)) r = c.epoch r
        rw [Function.update_self, ih, atomicInc_of_lt (by omega)]
        omega
      · have hmem := mem_rest_fire_iff (M := epilogue L part) r (firstThread B) .bumpSeq hrest
          fun heq => hit ⟨heq.1, heq.2.symm⟩
        simp only [fire_mem, fire_epoch, hmem]
        exact (effect_tpSeqctr hit).trans ih
    | @launch r' hmore hidle =>
      by_cases hr : r = r'
      · subst hr
        have hbefore : Instr.bumpSeq ∉ c.rest r (firstThread B) := by simp [hidle]
        have hafter : Instr.bumpSeq ∈ ((epilogue L part).launch c r).rest r (firstThread B) := by
          rw [launch_rest_self]
          exact mem_prog.mpr ⟨Nat.succ_pos _, rfl, rfl⟩
        rw [if_pos hafter, launch_epoch_self]
        rw [if_neg hbefore] at ih
        exact ih
      · rw [launch_rest_of_ne c r' hr, launch_epoch_of_ne c r' hr]
        exact ih

/-- Having bumped the counter in launch `n`, the first thread holds `n`. -/
lemma seq_eq (hfresh : Fresh m₀) (h : (epilogue L part).Reachable m₀ c) (hpos : 0 < c.epoch r)
    (hnot : .bumpSeq ∉ c.rest r (firstThread B)) : (c.reg r (firstThread B)).seq = c.epoch r := by
  have hmem : Instr.bumpSeq ∈ (epilogue L part).prog (c.epoch r) r (firstThread B) :=
    mem_prog.mpr ⟨hpos, rfl, rfl⟩
  refine h.of_done_epoch (epilogue_staged L part)
    (P := fun c' => (c'.reg r (firstThread B)).seq = c.epoch r) hpos hmem ?_ ?_ ?_ rfl hnot
  · intro c' l hc hepoch hrest _
    have hctr := seqctr_eq hfresh hc r
    rw [if_pos (by rw [hrest]; exact List.mem_cons_self), hepoch] at hctr
    have hlt := epoch_lt hc r
    rw [fire_reg_self]
    change atomicInc (c'.mem.tpSeqctr r) = c.epoch r
    rw [hctr, atomicInc_of_lt (by omega)]
    omega
  · intro c' r' t' j l hc _ hnot' hrest _ hP
    rw [fire_seq, hP]
    rintro ⟨rfl, rfl, rfl⟩
    exact hnot' (by rw [hrest]; exact List.mem_cons_self)
  · intro c' r' _ hr _ hP
    rwa [launch_reg_of_ne c' r' (Ne.symm hr)]

/-- Once published, the sequence word of a rank in launch `n` holds `n`. -/
lemma seqPub_eq (hfresh : Fresh m₀) (h : (epilogue L part).Reachable m₀ c) (hpos : 0 < c.epoch r)
    (hnot : .publishSeq ∉ c.rest r (firstThread B)) : c.mem.tpSeqPub r = c.epoch r := by
  have hmem : Instr.publishSeq ∈ (epilogue L part).prog (c.epoch r) r (firstThread B) :=
    mem_prog.mpr ⟨hpos, rfl, rfl⟩
  refine h.of_done_epoch (epilogue_staged L part)
    (P := fun c' => c'.mem.tpSeqPub r = c.epoch r) hpos hmem ?_ ?_ ?_ rfl hnot
  · intro c' l hc hepoch hrest _
    have hbump := (done_of_head (epilogue_staged L part) hc hrest
      (i := .bumpSeq) (by simp [stage])).not_mem rfl
    rw [fire_mem]
    change Function.update c'.mem.tpSeqPub r (c'.reg r (firstThread B)).seq r = c.epoch r
    rw [Function.update_self, seq_eq hfresh hc (by omega) hbump, hepoch]
  · intro c' r' t' j l hc _ hnot' hrest _ hP
    rw [fire_mem]
    refine (effect_tpSeqPub ?_).trans hP
    rintro ⟨rfl, rfl⟩
    obtain ⟨_, hblock, hlead⟩ := runs_of_head hc hrest
    obtain rfl := eq_firstThread hblock hlead
    exact hnot' (by rw [hrest]; exact List.mem_cons_self)
  · intro c' r' _ hr _ hP
    rw [launch_mem]
    change Function.update c'.mem.tpSeqPub r' 0 r = c.epoch r
    rwa [Function.update_of_ne (Ne.symm hr)]

/-- Every thread uses the launch number as the sequence. -/
theorem seqEff_eq (hfresh : Fresh m₀) (h : (epilogue L part).Reachable m₀ c)
    (hpos : 0 < c.epoch r) (hnot : .loadSeq ∉ c.rest r t) :
    (c.reg r t).seqEff = c.epoch r := by
  have hmem : Instr.loadSeq ∈ (epilogue L part).prog (c.epoch r) r t :=
    mem_prog.mpr ⟨hpos, trivial⟩
  refine h.of_done_epoch (epilogue_staged L part)
    (P := fun c' => (c'.reg r t).seqEff = c.epoch r) hpos hmem ?_ ?_ ?_ rfl hnot
  · intro c' l hc hepoch hrest _
    have hpos' : 0 < c'.epoch r := by omega
    have hsync : Done c' (c'.epoch r) r t (.syncGrid 0) :=
      done_of_head (epilogue_staged L part) hc hrest (by simp [stage])
    -- the first grid barrier orders the load after the publication
    have hgrid : ∀ t', Instr.syncGrid 0 ∈ (epilogue L part).prog (c'.epoch r) r t' := fun t' =>
      mem_prog.mpr ⟨hpos', by simp [Runs, Build.numBarrierSites]⟩
    have hpublish : Done c' (c'.epoch r) r (firstThread B) .publishSeq :=
      hc.done_of_barrier (epilogue_staged L part) (fun _ => True) hpos' (hgrid t)
        (fun t' _ => hgrid t') (fun _ hopen t' _ => hopen t') hsync trivial (by simp [stage])
    rw [fire_reg_self]
    change c'.mem.tpSeqPub r = c.epoch r
    rw [seqPub_eq hfresh hc hpos' (hpublish.not_mem rfl), hepoch]
  · intro c' r' t' j l hc _ hnot' hrest _ hP
    rw [fire_seqEff, hP]
    rintro ⟨rfl, rfl, rfl⟩
    exact hnot' (by rw [hrest]; exact List.mem_cons_self)
  · intro c' r' _ hr _ hP
    rwa [launch_reg_of_ne c' r' (Ne.symm hr)]

/-- A thread past the load of the sequence uses the launch number. -/
lemma seqEff_of_head (hfresh : Fresh m₀) (h : (epilogue L part).Reachable m₀ c)
    (hrest : c.rest r t = i :: l) (hstage : stage B (.loadSeq : Instr world) < stage B i) :
    (c.reg r t).seqEff = c.epoch r :=
  seqEff_eq hfresh h (runs_of_head h hrest).1
    ((done_of_head (epilogue_staged L part) h hrest hstage).not_mem rfl)

/-- A thread has its sequence number before it signals. -/
lemma stage_loadSeq_lt_signal (b : RankBarrier) (s : Fin world) :
    stage B (.loadSeq : Instr world) < stage B (.signal b s) := by
  cases b <;> simp only [stage, finalStage] <;> omega

/-- It signals all ranks before it waits for any. -/
lemma stage_signal_lt_await (b : RankBarrier) (s s' : Fin world) :
    stage B (.signal b s) < stage B (.await b s') := by
  cases b <;> simp [stage]

/-! ## Arrival counts -/

/-- Every store of rank `r` to chunk `ch` in launch `n` has been executed. -/
def Stored (L : Launches B) (part : ℕ → Fin world → ℕ → V) (c : EpilogueConfig B world V) (n : ℕ)
    (r : Fin world) (ch : ℕ) : Prop :=
  ∀ t u, .storeOut ch u ∈ (epilogue L part).prog n r t → Done c n r t (.storeOut ch u)

/-- Every communication block of rank `r` has arrived at the end of launch `n`. -/
def AllArrived (L : Launches B) (c : EpilogueConfig B world V) (n : ℕ) (r : Fin world) : Prop :=
  ∀ t, ¬ Computes (L.args n) t → IsLead t → Done c n r t .arriveDone

/-- A chunk that is stored stays stored. -/
lemma Stored.step (h : Stored L part c n r ch) (hstep : (epilogue L part).Step c c') :
    Stored L part c' n r ch :=
  fun t u hmem => (h t u hmem).step hstep

/-- Blocks that have arrived stay arrived. -/
lemma AllArrived.step (h : AllArrived L c n r) (hstep : (epilogue L part).Step c c') :
    AllArrived L c' n r :=
  fun t hcomm hlead => (h t hcomm hlead).step hstep

/-- Thread 0 of every compute block. -/
def computeLeads (B : Build) (a : LaunchArgs) : Finset B.Thread :=
  Finset.univ.filter fun t => Computes a t ∧ IsLead t

/-- Thread 0 of every communication block. -/
def commLeads (B : Build) (a : LaunchArgs) : Finset B.Thread :=
  Finset.univ.filter fun t => ¬ Computes a t ∧ IsLead t

/-- The leads of the blocks with a given property are as many as these blocks. -/
lemma card_leads (p : Fin B.gridSize → Prop) [DecidablePred p] :
    (Finset.univ.filter fun t : B.Thread => p t.1 ∧ IsLead t).card =
      (Finset.univ.filter p).card := by
  refine (Finset.card_bij (fun b _ => B.lead b) ?_ ?_ ?_).symm
  · intro b hb
    simpa using hb
  · intro b _ b' _ heq
    exact congrArg Prod.fst heq
  · intro t ht
    obtain ⟨_, hp, hlead⟩ := Finset.mem_filter.mp ht
    exact ⟨t.1, by simpa using hp, (eq_lead hlead).symm⟩

/-- One leader for each compute block. -/
lemma card_computeLeads (a : LaunchArgs) : (computeLeads B a).card = a.ncomp B := by
  refine (card_leads fun b => (b : ℕ) < a.ncomp B).trans ?_
  rw [Fin.card_filter_val_lt]
  exact Nat.min_eq_right (Nat.sub_le _ _)

/-- One leader for each communication block. -/
lemma card_commLeads {a : LaunchArgs} (h : Admitted B a) : (commLeads B a).card = a.ncomm := by
  refine (card_leads fun b => ¬ (b : ℕ) < a.ncomp B).trans ?_
  have hsplit := Finset.card_filter_add_card_filter_not
    (s := (Finset.univ : Finset (Fin B.gridSize))) (fun b : Fin B.gridSize => (b : ℕ) < a.ncomp B)
  rw [Fin.card_filter_val_lt, Finset.card_univ, Fintype.card_fin] at hsplit
  have := h.ncomm_lt
  unfold ncomp at hsplit ⊢
  omega

/-- The threads of a grid are counted in 32 bits. -/
lemma card_thread_lt : Fintype.card B.Thread < 2 ^ 32 := by
  rw [Fintype.card_prod, Fintype.card_fin, Fintype.card_fin]
  exact B.threads_lt

/-- No counter that every thread raises once wraps around. -/
lemma atomicInc_eq : ∀ k, k < Fintype.card B.Thread → atomicInc k = k + 1 := fun _ hk =>
  atomicInc_of_lt (Nat.lt_of_le_of_lt hk card_thread_lt)

/-- `tp_ready[ch]` counts the compute blocks that have arrived at chunk `ch`. -/
lemma tpReady_eq (h : (epilogue L part).Reachable m₀ c) (hpos : 0 < c.epoch r) :
    c.mem.tpReady r ch = ((epilogue L part).fired c r (.arriveReady ch)).card := by
  refine h.counter_eq (epilogue_staged L part) (fun m => m.tpReady r ch) atomicInc ?_ ?_ ?_ ?_
    atomicInc_eq hpos
  · intro m
    simp [epilogue, Mem.zeroWorkspace]
  · intro r' m hr
    simp [epilogue, Mem.zeroWorkspace, Ne.symm hr]
  · intro c t
    exact write_self _ _ _ _
  · intro c r' t i hne
    exact effect_tpReady fun heq => hne ⟨heq.1.symm, heq.2⟩

/-- `tp_done_local` counts the communication blocks that have arrived at the end. -/
lemma tpDoneLocal_eq (h : (epilogue L part).Reachable m₀ c) (hpos : 0 < c.epoch r) :
    c.mem.tpDoneLocal r = ((epilogue L part).fired c r .arriveDone).card := by
  refine h.counter_eq (epilogue_staged L part) (fun m => m.tpDoneLocal r) atomicInc ?_ ?_ ?_ ?_
    atomicInc_eq hpos
  · intro m
    simp [epilogue, Mem.zeroWorkspace]
  · intro r' m hr
    simp [epilogue, Mem.zeroWorkspace, Ne.symm hr]
  · intro c t
    exact Function.update_self _ _ _
  · intro c r' t i hne
    exact effect_tpDoneLocal fun heq => hne ⟨heq.1.symm, heq.2⟩

/-- When the arrival count of a chunk is complete, all stores of the rank to it are done. -/
lemma stored_of_tpReady (h : (epilogue L part).Reachable m₀ c) (hpos : 0 < c.epoch r)
    (hch : ch < (L.args (c.epoch r)).nchunk)
    (hcount : (L.args (c.epoch r)).ncomp B ≤ c.mem.tpReady r ch) :
    Stored L part c (c.epoch r) r ch := by
  rw [tpReady_eq h hpos, ← card_computeLeads] at hcount
  intro t u hmem
  obtain ⟨_, hcomp, _, _⟩ := mem_prog.mp hmem
  have hleadcomp : Computes (L.args (c.epoch r)) (B.lead t.1) := hcomp
  have harrived : Instr.arriveReady ch ∉ c.rest r (B.lead t.1) := by
    refine not_mem_rest_of_card_le (S := computeLeads B (L.args (c.epoch r))) ?_ hcount ?_
    · intro t' ht'
      obtain ⟨_, hcomp', hlead', _⟩ := mem_prog.mp ht'
      exact Finset.mem_filter.mpr ⟨Finset.mem_univ _, hcomp', hlead'⟩
    · exact Finset.mem_filter.mpr ⟨Finset.mem_univ _, hleadcomp, rfl⟩
  -- the lead arrives after the barrier of its block, and the block's stores lie before it
  have harrive : Instr.arriveReady ch ∈ (epilogue L part).prog (c.epoch r) r (B.lead t.1) :=
    mem_prog.mpr ⟨hpos, hleadcomp, rfl, hch⟩
  have hsites : ∀ t', t'.1 = t.1 →
      Instr.syncThreads (.chunkStored ch) ∈ (epilogue L part).prog (c.epoch r) r t' := by
    intro t' ht'
    refine mem_prog.mpr ⟨hpos, ?_, hch⟩
    unfold Computes
    rw [ht']
    exact hcomp
  have hsync : Done c (c.epoch r) r (B.lead t.1) (.syncThreads (.chunkStored ch)) :=
    Done.of_stage_lt (epilogue_staged L part) h harrive (Or.inr ⟨rfl, harrived⟩)
      (by simp [stage, siteStage])
  exact h.done_of_barrier (epilogue_staged L part) (fun t' => t'.1 = t.1) hpos
    (hsites _ (lead_fst _)) hsites (fun _ hopen t' ht' => hopen t' ht') hsync rfl
    (by simp [stage, siteStage])

/-- Past its wait for chunk `ch`, a communication block has the stores of its rank behind it. -/
theorem stored_of_awaitReady (h : (epilogue L part).Reachable m₀ c)
    (hmem : .awaitReady ch ∈ (epilogue L part).prog n r t)
    (hdone : Done c n r t (.awaitReady ch)) : Stored L part c n r ch := by
  obtain ⟨hpos, _, _, hch⟩ := mem_prog.mp hmem
  refine h.of_done_guard (P := fun c => Stored L part c n r ch) hpos hmem
    (fun _ _ _ hstep hP => hP.step hstep) ?_ hdone
  rintro c l hc rfl _ hguard
  exact stored_of_tpReady hc hpos hch hguard

/-- When as many communication blocks have arrived as there are, all have. -/
lemma allArrived_of_card (hcard : (L.args (c.epoch r)).ncomm ≤
      ((epilogue L part).fired c r .arriveDone).card) : AllArrived L c (c.epoch r) r := by
  rw [← card_commLeads (L.admitted _)] at hcard
  intro t hcomm hlead
  refine Or.inr ⟨rfl, not_mem_rest_of_card_le (S := commLeads B (L.args (c.epoch r))) ?_ hcard ?_⟩
  · intro t' ht'
    obtain ⟨_, hcomm', hlead'⟩ := mem_prog.mp ht'
    exact Finset.mem_filter.mpr ⟨Finset.mem_univ _, hcomm', hlead'⟩
  · exact Finset.mem_filter.mpr ⟨Finset.mem_univ _, hcomm, hlead⟩

/-- The block that finds itself last has all communication blocks of its rank behind it. -/
lemma allArrived_of_last (h : (epilogue L part).Reachable m₀ c)
    (hmem : .arriveDone ∈ (epilogue L part).prog (c.epoch r) r t)
    (hnot : .arriveDone ∉ c.rest r t) (hlast : (c.reg r t).last) :
    AllArrived L c (c.epoch r) r := by
  have hpos := (mem_prog.mp hmem).1
  refine h.of_done_epoch (epilogue_staged L part)
    (P := fun c' => (c'.reg r t).last → AllArrived L c' (c.epoch r) r) hpos hmem ?_ ?_ ?_ rfl
    hnot hlast
  · intro c' l hc hepoch hrest _ hlast'
    obtain ⟨hnotfired, hinsert⟩ := fired_fire_self (epilogue_staged L part) hc hrest
    rw [fire_reg_self] at hlast'
    have hcount : c'.mem.tpDoneLocal r = (L.args (c'.epoch r)).ncomm - 1 := beq_iff_eq.mp hlast'
    rw [tpDoneLocal_eq hc (by omega)] at hcount
    have hcard : (L.args (c'.epoch r)).ncomm ≤ ((epilogue L part).fired
        ((epilogue L part).fire c' r t .arriveDone l) r .arriveDone).card := by
      rw [hinsert, Finset.card_insert_of_notMem hnotfired, hcount]
      have := (L.admitted (c'.epoch r)).ncomm_pos
      omega
    rw [← hepoch]
    exact allArrived_of_card hcard
  · intro c' r' t' j l hc _ hnot' hrest henabled hP hlast'
    refine (hP ?_).step (Machine.Step.fire hrest henabled)
    rw [fire_last] at hlast'
    · exact hlast'
    · rintro ⟨rfl, rfl, rfl⟩
      exact hnot' (by rw [hrest]; exact List.mem_cons_self)
  · intro c' r' _ hr hstep hP hlast'
    rw [launch_reg_of_ne c' r' (Ne.symm hr)] at hlast'
    exact (hP hlast').step hstep

/-! ## Signal pads -/

/-- A pad word determines its slot and its source rank. -/
lemma padWord_inj {slot slot' q q' : ℕ} (hq : q < world) (hq' : q' < world)
    (heq : padWord world slot q = padWord world slot' q') : slot = slot' ∧ q = q' :=
  Loops.rowMajor_inj hq hq' heq

/-- The calls of `tp_rank_barrier` that occur in a launch. -/
def RankBarrier.Valid (a : LaunchArgs) : RankBarrier → Prop
  | .chunk ch cb => ch < a.nchunk ∧ cb < a.ncomm
  | .exit => True

/-- Within a launch the slots of distinct calls are distinct. -/
lemma RankBarrier.slot_inj {a : LaunchArgs} {b b' : RankBarrier} (hb : b.Valid a)
    (hb' : b'.Valid a) (heq : b.slot a = b'.slot a) : b = b' := by
  cases b with
  | exit =>
    cases b' with
    | exit => rfl
    | chunk ch' cb' => exact absurd heq (Loops.rowMajor_lt hb'.1 hb'.2).ne'
  | chunk ch cb =>
    cases b' with
    | exit => exact absurd heq (Loops.rowMajor_lt hb.1 hb.2).ne
    | chunk ch' cb' =>
      obtain ⟨rfl, rfl⟩ := Loops.rowMajor_inj hb.2 hb'.2 heq
      rfl

/-- What rank `q` has behind it when it signals a barrier in launch `n`. -/
def Released (L : Launches B) (part : ℕ → Fin world → ℕ → V) (c : EpilogueConfig B world V)
    (n : ℕ) (q : Fin world) : RankBarrier → Prop
  | .chunk ch _ => Stored L part c n q ch
  | .exit => AllArrived L c n q

/-- What a rank has behind it stays behind it. -/
lemma Released.step {b : RankBarrier} (h : Released L part c n r b)
    (hstep : (epilogue L part).Step c c') : Released L part c' n r b := by
  cases b with
  | chunk ch cb => exact Stored.step h hstep
  | exit => exact AllArrived.step h hstep

/-- A rank past launch `n` has everything of launch `n` behind it. -/
lemma Released.of_epoch_lt {b : RankBarrier} (h : n < c.epoch r) : Released L part c n r b := by
  cases b with
  | chunk ch cb => exact fun _ _ _ => Or.inl h
  | exit => exact fun _ _ _ => Or.inl h

/-- The barrier calls a thread signals are those of its launch. -/
lemma valid_of_runs_signal {a : LaunchArgs} (ha : Admitted B a) {b : RankBarrier}
    (h : Runs a r t (.signal b s)) : b.Valid a := by
  cases b with
  | exit => trivial
  | chunk ch cb =>
    obtain ⟨hcomm, _, hch, rfl⟩ := h
    have hblock := t.1.isLt
    have hlt := ha.ncomm_lt
    unfold Computes at hcomm
    refine ⟨hch, ?_⟩
    unfold ncomp at hcomm ⊢
    omega

/-- A rank that signals a barrier has behind it what the barrier stands for. -/
lemma released_of_signal (h : (epilogue L part).Reachable m₀ c) {b : RankBarrier}
    (hrest : c.rest r t = .signal b s :: l) (hpart : (c.reg r t).participates b) :
    Released L part c (c.epoch r) r b := by
  obtain ⟨hpos, hruns⟩ := runs_of_head h hrest
  cases b with
  | chunk ch cb =>
    obtain ⟨hcomm, hlead, hch, _⟩ := hruns
    have hmem : Instr.awaitReady ch ∈ (epilogue L part).prog (c.epoch r) r t :=
      mem_prog.mpr ⟨hpos, hcomm, hlead, hch⟩
    exact stored_of_awaitReady h hmem
      (done_of_head (epilogue_staged L part) h hrest (by simp [stage]))
  | exit =>
    obtain ⟨hcomm, hlead⟩ := hruns
    have hmem : Instr.arriveDone ∈ (epilogue L part).prog (c.epoch r) r t :=
      mem_prog.mpr ⟨hpos, hcomm, hlead⟩
    refine allArrived_of_last h hmem ?_ hpart
    exact (done_of_head (epilogue_staged L part) h hrest (by simp [stage])).not_mem rfl

/-- What the word that rank `q` has left for `slot` in rank `s`'s pad vouches for. -/
structure PadInv (L : Launches B) (part : ℕ → Fin world → ℕ → V) (c : EpilogueConfig B world V)
    (s q : Fin world) (slot : ℕ) : Prop where
  le_epoch : c.mem.pads s (padWord world slot q) ≤ c.epoch q
  released : 0 < c.mem.pads s (padWord world slot q) →
    ∀ b : RankBarrier, b.Valid (L.args (c.mem.pads s (padWord world slot q))) →
      b.slot (L.args (c.mem.pads s (padWord world slot q))) = slot →
      Released L part c (c.mem.pads s (padWord world slot q)) q b

/-- A step that leaves the word alone keeps what it vouches for. -/
lemma PadInv.of_same {q : Fin world} {slot : ℕ} (h : PadInv L part c s q slot)
    (hstep : (epilogue L part).Step c c') (hepoch : c.epoch q ≤ c'.epoch q)
    (hsame : c'.mem.pads s (padWord world slot q) = c.mem.pads s (padWord world slot q)) :
    PadInv L part c' s q slot where
  le_epoch := by
    rw [hsame]
    exact h.le_epoch.trans hepoch
  released := by
    rw [hsame]
    exact fun hpos b hb hslot => (h.released hpos b hb hslot).step hstep

/-- The invariant of the pads holds in every reachable configuration. -/
theorem padInv (hfresh : Fresh m₀) (h : (epilogue L part).Reachable m₀ c) (s q : Fin world)
    (slot : ℕ) : PadInv L part c s q slot := by
  induction h with
  | init =>
    have hzero : ((epilogue L part).init m₀).mem.pads s (padWord world slot q) = 0 :=
      hfresh.pads_zero s _
    refine ⟨?_, fun hpos => absurd hpos ?_⟩ <;> simp [hzero]
  | @step c c' hc hstep ih =>
    have hstep' := hstep
    cases hstep with
    | @fire r t i l hrest _ =>
      by_cases hit : ∃ b, i = .signal b s ∧ (c.reg r t).participates b ∧
          padWord world slot q = padWord world (b.slot (L.args (c.epoch r))) r
      · obtain ⟨b, rfl, hpart, hword⟩ := hit
        obtain ⟨hpos, hruns⟩ := runs_of_head hc hrest
        obtain ⟨rfl, hqr⟩ := padWord_inj q.isLt r.isLt hword
        obtain rfl := Fin.ext hqr
        have hvalue : ((epilogue L part).fire c q t (.signal b s) l).mem.pads s
            (padWord world (b.slot (L.args (c.epoch q))) q) = c.epoch q := by
          rw [fire_mem]
          change (effect L part c q t (.signal b s)).1.pads s _ = _
          simp only [effect, hpart, if_true, write_self]
          exact seqEff_of_head hfresh hc hrest (stage_loadSeq_lt_signal b s)
        refine ⟨by rw [hvalue]; rfl, ?_⟩
        rw [hvalue]
        intro _ b' hb' hslot
        have hb := valid_of_runs_signal (L.admitted _) hruns
        obtain rfl := RankBarrier.slot_inj hb' hb hslot
        exact (released_of_signal hc hrest hpart).step hstep'
      · refine ih.of_same hstep' le_rfl ?_
        rw [fire_mem]
        exact effect_pads fun b hi hpart hw => hit ⟨b, hi, hpart, hw⟩
    | @launch r _ _ =>
      refine ih.of_same hstep' ?_ rfl
      by_cases hr : q = r
      · subst hr
        rw [launch_epoch_self]
        exact Nat.le_succ _
      · rw [launch_epoch_of_ne c r hr]

/-- A pad word at least `n` vouches for its writer in launch `n`, also when it was written in a
later launch with other arguments. -/
theorem released_of_pads (hfresh : Fresh m₀) (h : (epilogue L part).Reachable m₀ c)
    {q : Fin world} {b : RankBarrier} (hn : 0 < n) (hb : b.Valid (L.args n))
    (hle : n ≤ c.mem.pads s (padWord world (b.slot (L.args n)) q)) : Released L part c n q b := by
  have hinv := padInv hfresh h s q (b.slot (L.args n))
  rcases hle.lt_or_eq with hlt | heq
  · exact Released.of_epoch_lt (hlt.trans_le hinv.le_epoch)
  · have hreleased := hinv.released (by omega)
    rw [← heq] at hreleased
    exact hreleased b hb rfl

/-! ## Rank barriers and the done flag -/

/-- The barrier calls a thread waits in are those of its launch. -/
lemma valid_of_runs_await {a : LaunchArgs} (ha : Admitted B a) {b : RankBarrier}
    (h : Runs a r t (.await b s)) : b.Valid a := by
  have hsignal : Runs a r t (.signal b s) := by
    cases b <;> exact h
  exact valid_of_runs_signal ha hsignal

/-- Past its wait for rank `s`, a thread that takes part in a barrier has behind it what the
barrier stands for on rank `s`. -/
theorem released_of_await (hfresh : Fresh m₀) (h : (epilogue L part).Reachable m₀ c)
    {b : RankBarrier} (hmem : .await b s ∈ (epilogue L part).prog (c.epoch r) r t)
    (hnot : .await b s ∉ c.rest r t) (hpart : (c.reg r t).participates b) :
    Released L part c (c.epoch r) s b := by
  obtain ⟨hpos, hruns⟩ := mem_prog.mp hmem
  refine h.of_done_epoch (epilogue_staged L part)
    (P := fun c' => (c'.reg r t).participates b → Released L part c' (c.epoch r) s b) hpos hmem
    ?_ ?_ ?_ rfl hnot hpart
  · intro c' l hc hepoch hrest henabled hpart'
    refine Released.step ?_ (Machine.Step.fire hrest henabled)
    rw [fire_reg_self] at hpart'
    have hle := henabled hpart'
    rw [seqEff_of_head hfresh hc hrest ((stage_loadSeq_lt_signal b s).trans
      (stage_signal_lt_await b s s)), hepoch] at hle
    exact released_of_pads hfresh hc hpos (valid_of_runs_await (L.admitted _) hruns) hle
  · intro c' r' t' j l hc hepoch hnot' hrest henabled hP hpart'
    refine (hP ?_).step (Machine.Step.fire hrest henabled)
    cases b with
    | chunk ch cb => rfl
    | exit =>
      change (c'.reg r t).last
      change (((epilogue L part).fire c' r' t' j l).reg r t).last at hpart'
      rw [fire_last] at hpart'
      · exact hpart'
      · -- the comparison that sets `last` lies before the wait
        rintro ⟨rfl, rfl, rfl⟩
        rw [← hepoch] at hmem
        have harrive := Done.of_stage_lt (i := .arriveDone) (epilogue_staged L part) hc hmem
          (Or.inr ⟨rfl, hnot'⟩) (by simp [stage])
        exact harrive.not_mem rfl (by rw [hrest]; exact List.mem_cons_self)
  · intro c' r' _ hr hstep hP hpart'
    rw [launch_reg_of_ne c' r' (Ne.symm hr)] at hpart'
    exact (hP hpart').step hstep

/-- A block that may set the flag has all communication blocks of all ranks behind it. -/
lemma allArrived_of_setDone (hfresh : Fresh m₀) (h : (epilogue L part).Reachable m₀ c)
    (hmem : .setDone ∈ (epilogue L part).prog (c.epoch r) r t)
    (hbehind : ∀ s, .await .exit s ∉ c.rest r t) (hlast : (c.reg r t).last) (q : Fin world) :
    AllArrived L c (c.epoch r) q := by
  obtain ⟨hpos, hcomm, hlead⟩ := mem_prog.mp hmem
  have hawait : Instr.await .exit q ∈ (epilogue L part).prog (c.epoch r) r t :=
    mem_prog.mpr ⟨hpos, hcomm, hlead⟩
  exact released_of_await hfresh h hawait (hbehind q) hlast

/-- A flag that is set has all communication blocks of all ranks behind it. -/
lemma allArrived_of_tpDoneFlag (hfresh : Fresh m₀) (h : (epilogue L part).Reachable m₀ c)
    (hpos : 0 < c.epoch r) (hflag : c.mem.tpDoneFlag r ≠ 0) (q : Fin world) :
    AllArrived L c (c.epoch r) q := by
  induction h with
  | init => exact absurd hpos (Nat.lt_irrefl 0)
  | @step c c' hc hstep ih =>
    have hstep' := hstep
    cases hstep with
    | @fire r' t i l hrest _ =>
      refine AllArrived.step ?_ hstep'
      by_cases hit : r = r' ∧ i = .setDone ∧ (c.reg r' t).last
      · obtain ⟨rfl, rfl, hlast⟩ := hit
        have hmem := hc.mem_prog (show Instr.setDone ∈ c.rest r t by
          rw [hrest]; exact List.mem_cons_self)
        refine allArrived_of_setDone hfresh hc hmem (fun s => ?_) hlast q
        exact (done_of_head (epilogue_staged L part) hc hrest (by simp [stage])).not_mem rfl
      · refine ih hpos ?_
        rw [fire_mem] at hflag
        exact fun hzero => hflag ((effect_tpDoneFlag hit).trans hzero)
    | @launch r' _ _ =>
      by_cases hr : r = r'
      · subst hr
        exact absurd (by simp [epilogue, Mem.zeroWorkspace]) hflag
      · rw [launch_epoch_of_ne c r' hr] at hpos ⊢
        refine (ih hpos ?_).step hstep'
        intro hzero
        apply hflag
        rw [launch_mem]
        change Function.update c.mem.tpDoneFlag r' 0 r = 0
        rwa [Function.update_of_ne hr]

/-- Past its wait for the flag, a communication block has all communication blocks of all ranks
behind it. -/
theorem allArrived_of_awaitDone (hfresh : Fresh m₀) (h : (epilogue L part).Reachable m₀ c)
    (hmem : .awaitDone ∈ (epilogue L part).prog n r t) (hdone : Done c n r t .awaitDone)
    (q : Fin world) : AllArrived L c n q := by
  obtain ⟨hpos, hcomm, hlead⟩ := mem_prog.mp hmem
  refine h.of_done_guard (P := fun c => AllArrived L c n q) hpos hmem
    (fun _ _ _ hstep hP => hP.step hstep) ?_ hdone
  rintro c l hc rfl hrest hguard
  rcases hguard with hlast | hflag
  · have hset : Instr.setDone ∈ (epilogue L part).prog (c.epoch r) r t :=
      mem_prog.mpr ⟨hpos, hcomm, hlead⟩
    refine allArrived_of_setDone hfresh hc hset (fun s => ?_) hlast q
    exact (done_of_head (epilogue_staged L part) hc hrest (by simp [stage])).not_mem rfl
  · exact allArrived_of_tpDoneFlag hfresh hc hpos hflag q

/-! ## Safety -/

/-- One of the two operations by which unit `u` of chunk `ch` is reduced. -/
def IsReduction (ch u : ℕ) (i : Instr world) : Prop := i = .ldReduce ch u ∨ i = .stMulticast ch u

/-- A thread takes part in a reduction when its block communicates and the unit is one of its shard.
-/
lemma runs_of_isReduction {a : LaunchArgs} (hi : IsReduction ch u i) :
    Runs a r t i ↔ ¬ Computes a t ∧ ch < a.nchunk ∧
      a.Reduces B world ch (a.shardOf r (t.1 - a.ncomp B)) t.2 u := by
  rcases hi with rfl | rfl <;> rfl

/-- All parts of the reduction of a chunk are at one stage. -/
lemma stage_of_isReduction (hi : IsReduction ch u i) : stage B i = 10 + 10 * ch + 9 := by
  rcases hi with rfl | rfl <;> rfl

/-- A thread about to reduce a unit of chunk `ch` has every store of every rank to the chunk
behind it. -/
theorem stored_of_reduction (hfresh : Fresh m₀) (h : (epilogue L part).Reachable m₀ c)
    (hrest : c.rest r t = i :: l) (hi : IsReduction ch u i) (q : Fin world) :
    Stored L part c (c.epoch r) q ch := by
  obtain ⟨hpos, hruns⟩ := runs_of_head h hrest
  obtain ⟨hcomm, hch, _⟩ := (runs_of_isReduction hi).mp hruns
  have hleadcomm : ¬ Computes (L.args (c.epoch r)) (B.lead t.1) := hcomm
  have hsites : ∀ t', t'.1 = t.1 →
      Instr.syncThreads (.chunkReleased ch) ∈ (epilogue L part).prog (c.epoch r) r t' := by
    intro t' ht'
    refine mem_prog.mpr ⟨hpos, ?_, hch⟩
    unfold Computes
    rw [ht']
    exact hcomm
  have hsync : Done c (c.epoch r) r t (.syncThreads (.chunkReleased ch)) :=
    done_of_head (epilogue_staged L part) h hrest (by
      rw [stage_of_isReduction hi]; simp [stage, siteStage])
  -- the lead of the block is past the rank barrier of the chunk
  let b : RankBarrier := .chunk ch (t.1 - (L.args (c.epoch r)).ncomp B)
  have hawaited : Done c (c.epoch r) r (B.lead t.1) (.await b q) :=
    h.done_of_barrier (epilogue_staged L part) (fun t' => t'.1 = t.1) hpos (hsites t rfl) hsites
      (fun _ hopen t' ht' => hopen t' ht') hsync (lead_fst _) (by simp [b, stage, siteStage])
  have hmem : Instr.await b q ∈ (epilogue L part).prog (c.epoch r) r (B.lead t.1) :=
    mem_prog.mpr ⟨hpos, hleadcomm, rfl, hch, rfl⟩
  exact released_of_await hfresh h hmem (hawaited.not_mem rfl) rfl

/-- When all communication blocks of a rank have arrived at the end of a launch, all its
reductions are done. -/
lemma reduced_of_allArrived (h : (epilogue L part).Reachable m₀ c) (harrived : AllArrived L c n s)
    (hmem : i ∈ (epilogue L part).prog n s t) (hi : IsReduction ch u i) : Done c n s t i := by
  obtain ⟨hpos, hruns⟩ := mem_prog.mp hmem
  obtain ⟨hcomm, hch, _⟩ := (runs_of_isReduction hi).mp hruns
  have hleadcomm : ¬ Computes (L.args n) (B.lead t.1) := hcomm
  have harrive : Instr.arriveDone ∈ (epilogue L part).prog n s (B.lead t.1) :=
    mem_prog.mpr ⟨hpos, hleadcomm, rfl⟩
  have hsites : ∀ t', t'.1 = t.1 →
      Instr.syncThreads .allReduced ∈ (epilogue L part).prog n s t' := by
    intro t' ht'
    refine mem_prog.mpr ⟨hpos, ?_⟩
    change ¬ Computes (L.args n) t'
    unfold Computes
    rw [ht']
    exact hcomm
  have hsync : Done c n s (B.lead t.1) (.syncThreads .allReduced) :=
    Done.of_stage_lt (epilogue_staged L part) h harrive (harrived _ hleadcomm rfl)
      (by simp [stage, siteStage])
  refine h.done_of_barrier (epilogue_staged L part) (fun t' => t'.1 = t.1) hpos
    (hsites _ (lead_fst _)) hsites (fun _ hopen t' ht' => hopen t' ht') hsync rfl ?_
  have := (L.admitted n).nchunk_le
  rw [stage_of_isReduction hi]
  simp only [stage, siteStage, finalStage]
  omega

/-- A rank past launch `n` has every reduction of launch `n`, on every rank, behind it. -/
theorem reduced_of_epoch_lt (hfresh : Fresh m₀) (h : (epilogue L part).Reachable m₀ c)
    (hlt : n < c.epoch r) (hmem : i ∈ (epilogue L part).prog n s t) (hi : IsReduction ch u i) :
    Done c n s t i := by
  have hpos := (mem_prog.mp hmem).1
  have hadm := L.admitted n
  -- a communication block of rank `r`, which has left launch `n`
  have hblock : (L.args n).ncomp B < B.gridSize := by
    have := hadm.ncomm_pos
    have := hadm.ncomm_lt
    unfold ncomp
    omega
  let t₀ : B.Thread := B.lead ⟨(L.args n).ncomp B, hblock⟩
  have hawait : Instr.awaitDone ∈ (epilogue L part).prog n r t₀ :=
    mem_prog.mpr ⟨hpos, Nat.lt_irrefl _, rfl⟩
  exact reduced_of_allArrived h (allArrived_of_awaitDone hfresh h hawait (Or.inl hlt) s) hmem hi

/-- Every unit of the output is reduced in a launch by exactly one thread of one communication
block of one rank. -/
theorem exists_unique_reduction (part : ℕ → Fin world → ℕ → V) (hworld : 0 < world)
    (hpads : HasPads B world) (hn : 0 < n) (hu : u < (L.args n).outMv B) :
    ∃! p : Fin world × B.Thread × ℕ, .ldReduce p.2.2 u ∈ (epilogue L part).prog n p.1 p.2.1 := by
  have hadm := L.admitted n
  obtain ⟨ch, ⟨hch, hlo, hhi⟩, hchuniq⟩ := exists_unique_chunk hadm hu
  obtain ⟨⟨rank, cb, tid⟩, ⟨hrank, hcb, htid, hred⟩, huniq⟩ :=
    exists_unique_reducer hadm hworld (hpads.shards_lt hadm) hch hlo hhi
  have hcomm_lt := hadm.ncomm_lt
  have hcomp : (L.args n).ncomp B = B.gridSize - (L.args n).ncomm := rfl
  have hblock : (L.args n).ncomp B + cb < B.gridSize := by
    have : cb < (L.args n).ncomm := hcb
    omega
  refine ⟨(⟨rank, hrank⟩, (⟨(L.args n).ncomp B + cb, hblock⟩, ⟨tid, htid⟩), ch), ?_, ?_⟩
  · refine mem_prog.mpr ⟨hn, ?_, hch, ?_⟩
    · unfold Computes
      simp
    · simpa using hred
  · rintro ⟨r, t, ch'⟩ hmem
    obtain ⟨_, hcomm, hch', hred'⟩ := mem_prog.mp hmem
    obtain ⟨hlo', hhi'⟩ := reduces_bounds t.2.isLt hred'
    obtain rfl : ch' = ch := hchuniq ch' ⟨hch', hlo', hhi'⟩
    have hge : (L.args n).ncomp B ≤ (t.1 : ℕ) := Nat.le_of_not_lt hcomm
    have hcb' : (t.1 : ℕ) - (L.args n).ncomp B < (L.args n).ncomm := by
      have := t.1.isLt
      omega
    have hsame := huniq (r, t.1 - (L.args n).ncomp B, t.2) ⟨r.isLt, hcb', t.2.isLt, hred'⟩
    obtain ⟨rfl, hrest⟩ := Prod.mk.inj hsame
    obtain ⟨rfl, rfl⟩ := Prod.mk.inj hrest
    refine Prod.ext rfl (Prod.ext (Prod.ext (Fin.ext ?_) rfl) rfl)
    change (t.1 : ℕ) = (L.args n).ncomp B + (t.1 - (L.args n).ncomp B)
    omega

/-- A unit that is reduced in chunk `ch` is written in chunk `ch` by exactly one thread of every
rank. -/
lemma exists_unique_store (part : ℕ → Fin world → ℕ → V)
    (hmem : .ldReduce ch u ∈ (epilogue L part).prog n r t) (q : Fin world) :
    ∃! t', .storeOut ch u ∈ (epilogue L part).prog n q t' := by
  obtain ⟨hpos, _, hch, hred⟩ := mem_prog.mp hmem
  obtain ⟨hlo, hhi⟩ := reduces_bounds t.2.isLt hred
  obtain ⟨t', ⟨hcomp, hunit⟩, huniq⟩ := exists_unique_writer (L.admitted n) hlo hhi
  refine ⟨t', mem_prog.mpr ⟨hpos, hcomp, hch, hunit⟩, fun t'' hmem'' => ?_⟩
  obtain ⟨_, hcomp'', _, hunit''⟩ := mem_prog.mp hmem''
  exact huniq t'' ⟨hcomp'', hunit''⟩

/-- What must hold in every configuration of the epilogue for its all-reduce to be correct. -/
structure EpilogueSafe (L : Launches B) (part : ℕ → Fin world → ℕ → V)
    (c : EpilogueConfig B world V) : Prop where
  /-- A thread about to reduce or multicast a unit of chunk `ch` has behind it, on every rank,
  all stores to the chunk in this launch, the store of that unit among them. -/
  chunk_stored : ∀ r t i l ch u, c.rest r t = i :: l → IsReduction ch u i → ∀ q,
    Stored L part c (c.epoch r) q ch ∧
      ∃! t', .storeOut ch u ∈ (epilogue L part).prog (c.epoch r) q t'
  /-- In a launch every unit of the output is reduced by one thread of one rank, in one chunk, -/
  one_reducer : ∀ n, 0 < n → ∀ u, u < (L.args n).outMv B →
    ∃! p : Fin world × B.Thread × ℕ, .ldReduce p.2.2 u ∈ (epilogue L part).prog n p.1 p.2.1
  /-- the thread belongs to a communication block, -/
  comm_block : ∀ n r t ch u, .ldReduce ch u ∈ (epilogue L part).prog n r t →
    ¬ Computes (L.args n) t
  /-- the same thread multicasts the unit, -/
  same_multicast : ∀ n r t ch u, .stMulticast ch u ∈ (epilogue L part).prog n r t ↔
    .ldReduce ch u ∈ (epilogue L part).prog n r t
  /-- and it does both once. -/
  once : ∀ n r t, ((epilogue L part).prog n r t).Nodup
  /-- A rank about to overwrite its output in a launch has every reduction and multicast of all
  earlier launches, on all ranks, behind it. -/
  earlier_reduced : ∀ r t ch u l, c.rest r t = .storeOut ch u :: l → ∀ n, n < c.epoch r →
    ∀ s t' i ch' u', i ∈ (epilogue L part).prog n s t' → IsReduction ch' u' i → Done c n s t' i

/-- The fused epilogue is safe: in every configuration reachable from zero signal pads and zero
sequence counters, whatever the sequence of admitted launches and whatever the interleaving. -/
theorem fused_epilogue_safe (hworld : 0 < world) (hpads : HasPads B world) (hfresh : Fresh m₀)
    (h : (epilogue L part).Reachable m₀ c) : EpilogueSafe L part c where
  chunk_stored r t i l ch u hrest hi q := by
    refine ⟨stored_of_reduction hfresh h hrest hi q, ?_⟩
    obtain ⟨hpos, hruns⟩ := runs_of_head h hrest
    have hmem : Instr.ldReduce ch u ∈ (epilogue L part).prog (c.epoch r) r t :=
      mem_prog.mpr ⟨hpos, (runs_of_isReduction hi).mp hruns⟩
    exact exists_unique_store part hmem q
  one_reducer n hn u hu := exists_unique_reduction part hworld hpads hn hu
  comm_block n r t ch u hmem := (mem_prog.mp hmem).2.1
  same_multicast n r t ch u := by
    rw [mem_prog, mem_prog, runs_of_isReduction (Or.inl rfl), runs_of_isReduction (Or.inr rfl)]
  once := (epilogue_staged L part).nodup
  earlier_reduced r t ch u l _ n hlt s t' i ch' u' hmem hi :=
    reduced_of_epoch_lt hfresh h hlt hmem hi

/-- Two launches of the DeepSeek build with different chunk and block counts. -/
def twoLaunches : Launches deepseekTP :=
  Launches.ofList ⟨16, 4, 14⟩ [⟨8, 2, 12⟩] (by decide) (by norm_num)

/-- The epilogue of `twoLaunches` on two ranks. -/
def twoRanks : Machine (Fin 2) deepseekTP.Thread (Instr 2) (Mem 2 ℕ) (Regs ℕ) :=
  epilogue twoLaunches fun n r u => n + r + u

/-- Rank 0 has started its first launch. -/
def firstStarted : EpilogueConfig deepseekTP 2 ℕ :=
  twoRanks.launch (twoRanks.init (zeroMem 2 ℕ)) 0

/-- Rank 0 may start right away. -/
lemma firstStarted_reachable : twoRanks.Reachable (zeroMem 2 ℕ) firstStarted :=
  .step .init (.launch (by decide) fun _ => rfl)

end UnimonoMoe
