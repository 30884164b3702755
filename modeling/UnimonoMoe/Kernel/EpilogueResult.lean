import UnimonoMoe.Kernel.EpilogueProgress

/-!
# What the fused epilogue computes

Safety orders the operations of the epilogue; here are the values that follow.  `OutInv` follows
one unit of the output through a launch: after the store of a rank it holds that rank's part
(`stored`), in the register of the reducing thread it is the sum over the ranks (`reduced`), and
from the multicast on it is the sum on every rank (`multicast`), until the rank stores the unit
again in a later launch.  The invariant is about all launches at once, since ranks drift: a rank may
multicast launch `n` while another has long finished its own part of it, but nobody can store into
launch `n + 1` before every multicast of launch `n`.

`out_of_finished` reads the result off the invariant for a rank that has finished a launch, however
far the other ranks have run ahead or stayed behind, and `fused_epilogue_total` for every run that
goes on as long as it can.
-/

namespace UnimonoMoe

open Epochs LaunchArgs

variable {B : Build} {world : ℕ} {V : Type*} [AddCommMonoid V] {L : Launches B}
  {part : ℕ → Fin world → ℕ → V} {m₀ : Mem world V} {c c' : EpilogueConfig B world V}
  {r s q : Fin world} {t t' : B.Thread} {i : Instr world} {n k ch ch' u : ℕ}

/-! ## Order within a thread -/

/-- A round of a loop is a part of the loop. -/
lemma sublist_flatMap {α β : Type*} {l : List α} {a : α} (f : α → List β) (ha : a ∈ l) :
    (f a).Sublist (l.flatMap f) := by
  rw [List.flatMap_def]
  exact List.sublist_flatten_of_mem (List.mem_map_of_mem ha)

/-- A thread loads a unit before it multicasts it. -/
lemma pair_reduceShard {a : LaunchArgs} (hmem : .stMulticast ch u ∈ reduceShard a r t ch) :
    [.ldReduce ch u, .stMulticast ch u].Sublist (reduceShard a r t ch) := by
  obtain ⟨v, ⟨base, hbase, hv⟩, heq⟩ := mem_reduceShard.mp hmem
  obtain rfl : u = v := by rcases heq with heq | heq <;> injection heq
  have hload : [(.ldReduce ch u : Instr world)].Sublist
      ((a.reducePass B world ch (a.shardOf r (t.1 - a.ncomp B)) base).map (.ldReduce ch)) :=
    List.singleton_sublist.mpr (List.mem_map_of_mem hv)
  have hstore : [(.stMulticast ch u : Instr world)].Sublist
      ((a.reducePass B world ch (a.shardOf r (t.1 - a.ncomp B)) base).map (.stMulticast ch)) :=
    List.singleton_sublist.mpr (List.mem_map_of_mem hv)
  unfold reduceShard
  exact (hload.append hstore).trans (sublist_flatMap (fun base =>
    (a.reducePass B world ch (a.shardOf r (t.1 - a.ncomp B)) base).map (Instr.ldReduce ch) ++
      (a.reducePass B world ch (a.shardOf r (t.1 - a.ncomp B)) base).map (.stMulticast ch)) hbase)

/-- A thread that multicasts a unit has reduced it before. -/
lemma pair_prog (hmem : .stMulticast ch u ∈ (epilogue L part).prog n r t) :
    [.ldReduce ch u, .stMulticast ch u].Sublist ((epilogue L part).prog n r t) := by
  obtain ⟨hpos, hcomm, hch, hred⟩ := mem_prog.mp hmem
  have hcomm' : ¬ (t.1 : ℕ) < (L.args n).ncomp B := hcomm
  have hshard := pair_reduceShard (mem_reduceShard.mpr ⟨u, hred, Or.inr rfl⟩)
  have hchunk : (reduceShard (L.args n) r t ch).Sublist (commChunk (L.args n) r t ch) :=
    ((List.sublist_append_right _ _).trans (List.sublist_append_right _ _)).trans
      ((List.sublist_append_right _ _).trans (List.sublist_append_right _ _))
  have hchunks : (commChunk (L.args n) r t ch).Sublist
      ((List.range (L.args n).nchunk).flatMap (commChunk (L.args n) r t)) :=
    sublist_flatMap _ (List.mem_range.mpr hch)
  have hprog : (epilogue L part).prog n r t = blockProgram (L.args n) r t := if_neg hpos.ne'
  rw [hprog]
  unfold blockProgram
  rw [if_neg hcomm']
  exact ((hshard.trans hchunk).trans (hchunks.trans (List.sublist_append_left _ _))).trans
    (List.sublist_append_right _ _)

/-! ## What has been stored and multicast -/

/-- Rank `s` has stored its part of unit `u` in launch `n`. -/
def HasStored (L : Launches B) (part : ℕ → Fin world → ℕ → V) (c : EpilogueConfig B world V)
    (n : ℕ) (s : Fin world) (u : ℕ) : Prop :=
  ∃ t ch, (epilogue L part).Ran c n s t (.storeOut ch u)

/-- Some rank has multicast unit `u` in launch `n`. -/
def HasMulticast (L : Launches B) (part : ℕ → Fin world → ℕ → V) (c : EpilogueConfig B world V)
    (n u : ℕ) : Prop :=
  ∃ r t ch, (epilogue L part).Ran c n r t (.stMulticast ch u)

/-- Rank `s` has not stored unit `u` in any launch after launch `n`. -/
def NotStoredAfter (L : Launches B) (part : ℕ → Fin world → ℕ → V) (c : EpilogueConfig B world V)
    (n : ℕ) (s : Fin world) (u : ℕ) : Prop :=
  ∀ k, n < k → ¬ HasStored L part c k s u

/-- Nothing of a later launch has been stored. -/
lemma HasStored.epoch_le (hst : HasStored L part c n s u) : n ≤ c.epoch s := by
  obtain ⟨t, ch, hran⟩ := hst
  exact hran.epoch_le

/-- A unit that has been stored stays so. -/
lemma HasStored.step (hst : HasStored L part c n s u) (hstep : (epilogue L part).Step c c') :
    HasStored L part c' n s u := by
  obtain ⟨t, ch, hran⟩ := hst
  exact ⟨t, ch, hran.step hstep⟩

/-- A unit that has been multicast stays so. -/
lemma HasMulticast.step (hmc : HasMulticast L part c n u)
    (hstep : (epilogue L part).Step c c') : HasMulticast L part c' n u := by
  obtain ⟨r, t, ch, hran⟩ := hmc
  exact ⟨r, t, ch, hran.step hstep⟩

/-- What is not stored after a step was not stored before it. -/
lemma NotStoredAfter.of_step (hno : NotStoredAfter L part c' n s u)
    (hstep : (epilogue L part).Step c c') : NotStoredAfter L part c n s u :=
  fun k hk hst => hno k hk (hst.step hstep)

/-! ## Chunks and launches -/

/-- Unit `u` lies in chunk `ch` of the output of launch `n`. -/
structure InChunk (L : Launches B) (n ch u : ℕ) : Prop where
  lt : ch < (L.args n).nchunk
  lo : (L.args n).unitLo B ch ≤ u
  hi : u < (L.args n).unitLo B (ch + 1)

/-- A unit of a chunk is a unit of the output. -/
lemma InChunk.lt_outMv (h : InChunk L n ch u) : u < (L.args n).outMv B := by
  have hle : (L.args n).unitLo B (ch + 1) ≤ (L.args n).unitLo B (L.args n).nchunk :=
    unitLo_mono h.lt
  rw [unitLo_nchunk (L.admitted n)] at hle
  exact h.hi.trans_le hle

/-- A unit lies in one chunk only. -/
lemma InChunk.unique (h : InChunk L n ch u) (h' : InChunk L n ch' u) : ch = ch' := by
  obtain ⟨c, _, huniq⟩ := exists_unique_chunk (L.admitted n) h.lt_outMv
  rw [huniq ch ⟨h.lt, h.lo, h.hi⟩, huniq ch' ⟨h'.lt, h'.lo, h'.hi⟩]

/-- The stores of a chunk are to its units. -/
lemma inChunk_of_store (hmem : .storeOut ch u ∈ (epilogue L part).prog n s t) :
    InChunk L n ch u := by
  obtain ⟨_, hcomp, hch, hunit⟩ := mem_prog.mp hmem
  obtain ⟨hlo, hhi, _⟩ := (mem_computeVecs hcomp).mp (mem_computeUnits.mp hunit)
  have hstart := unitLo_eq (L.admitted n) ch
  have hend := unitLo_eq (L.admitted n) (ch + 1)
  exact ⟨hch, by omega, by omega⟩

/-- So are its reductions. -/
lemma inChunk_of_reduction (hmem : i ∈ (epilogue L part).prog n r t) (hi : IsReduction ch u i) :
    InChunk L n ch u := by
  obtain ⟨_, hch, hred⟩ := (runs_of_isReduction hi).mp (mem_prog.mp hmem).2
  obtain ⟨hlo, hhi⟩ := reduces_bounds t.2.isLt hred
  exact ⟨hch, hlo, hhi⟩

/-- A thread with a part in the reduction of a unit loads it. -/
lemma ldReduce_of_reduction (hmem : i ∈ (epilogue L part).prog n r t) (hi : IsReduction ch u i) :
    .ldReduce ch u ∈ (epilogue L part).prog n r t := by
  obtain ⟨hpos, hruns⟩ := mem_prog.mp hmem
  exact mem_prog.mpr ⟨hpos, (runs_of_isReduction hi).mp hruns⟩

/-- And it multicasts it. -/
lemma stMulticast_of_reduction (hmem : i ∈ (epilogue L part).prog n r t)
    (hi : IsReduction ch u i) : .stMulticast ch u ∈ (epilogue L part).prog n r t := by
  obtain ⟨hpos, hruns⟩ := mem_prog.mp hmem
  exact mem_prog.mpr ⟨hpos, (runs_of_isReduction hi).mp hruns⟩

/-- The stores that a reduction of a unit waits for include those of that unit on every rank. -/
lemma hasStored_of_stored (hmem : i ∈ (epilogue L part).prog n r t) (hi : IsReduction ch u i)
    (hstored : Stored L part c n q ch) : HasStored L part c n q u := by
  obtain ⟨t', ht', _⟩ := exists_unique_store part (ldReduce_of_reduction hmem hi) q
  exact ⟨t', ch, ht', hstored t' u ht'⟩

/-- A thread about to load or to multicast a unit has the stores of all ranks to it behind it. -/
lemma hasStored_of_head (hfresh : Fresh m₀) (h : (epilogue L part).Reachable m₀ c)
    (head : c.Head r t i) (hi : IsReduction ch u i) (q : Fin world) :
    HasStored L part c (c.epoch r) q u := by
  obtain ⟨l, hrest⟩ := head
  have hstored := stored_of_reduction hfresh h hrest hi q
  exact hasStored_of_stored (Config.Head.mem_prog h ⟨l, hrest⟩) hi hstored

/-- What has been multicast has been stored by every rank, and no store of the unit in the same
launch is left. -/
lemma stored_of_hasMulticast (hfresh : Fresh m₀) (h : (epilogue L part).Reachable m₀ c)
    (hmc : HasMulticast L part c n u) (q : Fin world) :
    ∃ ch, InChunk L n ch u ∧ Stored L part c n q ch := by
  obtain ⟨r, t, ch, hran⟩ := hmc
  refine ⟨ch, inChunk_of_reduction hran.1 (Or.inr rfl), ?_⟩
  refine h.of_done_guard (P := fun c => Stored L part c n q ch) (mem_prog.mp hran.1).1 hran.1
    (fun _ _ _ hstep hP => hP.step hstep) ?_ hran.2
  rintro c l hc rfl hrest _
  exact stored_of_reduction hfresh hc hrest (Or.inr rfl) q

/-- A unit that has been multicast was stored on all ranks. -/
lemma hasStored_of_hasMulticast (hfresh : Fresh m₀) (h : (epilogue L part).Reachable m₀ c)
    (hmc : HasMulticast L part c n u) (q : Fin world) : HasStored L part c n q u := by
  obtain ⟨r, t, ch, hran⟩ := id hmc
  obtain ⟨ch', hin, hstored⟩ := stored_of_hasMulticast hfresh h hmc q
  obtain rfl := hin.unique (inChunk_of_reduction hran.1 (Or.inr rfl))
  exact hasStored_of_stored hran.1 (Or.inr rfl) hstored

/-- A rank about to store a unit finds it not yet multicast in its launch. -/
lemma not_hasMulticast_of_head (hfresh : Fresh m₀) (h : (epilogue L part).Reachable m₀ c)
    (head : c.Head r t (.storeOut ch u)) : ¬ HasMulticast L part c (c.epoch r) u := by
  intro hmc
  have hmem := Config.Head.mem_prog h head
  obtain ⟨ch', hin, hstored⟩ := stored_of_hasMulticast hfresh h hmc r
  obtain rfl := hin.unique (inChunk_of_store hmem)
  exact head.not_ran ⟨hmem, hstored t u hmem⟩

/-- While a reduction of launch `n` is left, no rank has stored in a later launch. -/
lemma notStoredAfter_of_head (hfresh : Fresh m₀) (h : (epilogue L part).Reachable m₀ c)
    (head : c.Head r t i) (hi : IsReduction ch u i) (q : Fin world) :
    NotStoredAfter L part c (c.epoch r) q u := by
  intro k hk hst
  have hmem := Config.Head.mem_prog h head
  have hdone := reduced_of_epoch_lt hfresh h (hk.trans_le hst.epoch_le) hmem hi
  exact head.not_ran ⟨hmem, hdone⟩

/-- A unit is reduced by one thread only. -/
lemma reducer_unique (hworld : 0 < world) (hpads : HasPads B world)
    (hmem : i ∈ (epilogue L part).prog n r t) (hi : IsReduction ch u i) {j : Instr world}
    {s : Fin world} (hmem' : j ∈ (epilogue L part).prog n s t') (hj : IsReduction ch' u j) :
    s = r ∧ t' = t ∧ ch' = ch := by
  have hu := (inChunk_of_reduction hmem hi).lt_outMv
  obtain ⟨p, _, huniq⟩ := exists_unique_reduction part hworld hpads (mem_prog.mp hmem).1 hu
  have hfst := huniq (r, t, ch) (ldReduce_of_reduction hmem hi)
  have hsnd := huniq (s, t', ch') (ldReduce_of_reduction hmem' hj)
  have heq := hsnd.trans hfst.symm
  simp only [Prod.mk.injEq] at heq
  exact heq

/-- A thread about to load a unit finds it not yet multicast in its launch. -/
lemma not_hasMulticast_of_load (hworld : 0 < world) (hpads : HasPads B world)
    (h : (epilogue L part).Reachable m₀ c) (head : c.Head r t (.ldReduce ch u)) :
    ¬ HasMulticast L part c (c.epoch r) u := by
  rintro ⟨s, t', ch', hran⟩
  obtain ⟨rfl, rfl, rfl⟩ :=
    reducer_unique hworld hpads (Config.Head.mem_prog h head) (Or.inl rfl) hran.1 (Or.inr rfl)
  exact head.not_ran (hran.before_of_pair (epilogue_staged L part) h (pair_prog hran.1))

/-! ## The invariant -/

/-- What the output buffers and the registers of the reducing threads hold. -/
structure OutInv (L : Launches B) (part : ℕ → Fin world → ℕ → V) (c : EpilogueConfig B world V) :
    Prop where
  /-- A unit that its rank has stored and nobody has multicast yet holds the part of the rank. -/
  stored : ∀ n s u, HasStored L part c n s u → NotStoredAfter L part c n s u →
    ¬ HasMulticast L part c n u → c.mem.out s u = part n s u
  /-- A thread between the load and the multicast of a unit holds its sum. -/
  reduced : ∀ n r t ch u, (epilogue L part).Ran c n r t (.ldReduce ch u) →
    ¬ (epilogue L part).Ran c n r t (.stMulticast ch u) → (c.reg r t).x u = ∑ s, part n s u
  /-- A unit that has been multicast holds its sum on every rank that has not stored again. -/
  multicast : ∀ n s u, HasMulticast L part c n u → NotStoredAfter L part c n s u →
    c.mem.out s u = ∑ q, part n q u

/-- A step that executes `i`, as far as `Ran` goes. -/
def Executes (L : Launches B) (part : ℕ → Fin world → ℕ → V) (c c' : EpilogueConfig B world V)
    (r : Fin world) (t : B.Thread) (i : Instr world) : Prop :=
  ∀ n r' t' j, (epilogue L part).Ran c' n r' t' j ↔
    (epilogue L part).Ran c n r' t' j ∨ n = c.epoch r ∧ r' = r ∧ t' = t ∧ j = i

/-- Only a store of the rank makes a unit stored. -/
lemma Executes.hasStored (hex : Executes L part c c' r t i) (hst : HasStored L part c' n s u) :
    HasStored L part c n s u ∨ n = c.epoch r ∧ s = r ∧ ∃ ch, i = .storeOut ch u := by
  obtain ⟨t', ch, hran⟩ := hst
  rcases (hex _ _ _ _).mp hran with hold | ⟨hn, hs, -, hi⟩
  · exact Or.inl ⟨t', ch, hold⟩
  · exact Or.inr ⟨hn, hs, ch, hi.symm⟩

/-- Only a multicast makes a unit multicast. -/
lemma Executes.hasMulticast (hex : Executes L part c c' r t i)
    (hmc : HasMulticast L part c' n u) :
    HasMulticast L part c n u ∨ n = c.epoch r ∧ ∃ ch, i = .stMulticast ch u := by
  obtain ⟨s, t', ch, hran⟩ := hmc
  rcases (hex _ _ _ _).mp hran with hold | ⟨hn, -, -, hi⟩
  · exact Or.inl ⟨s, t', ch, hold⟩
  · exact Or.inr ⟨hn, ch, hi.symm⟩

/-- What has been loaded and not multicast was so before the step, or has just been loaded. -/
lemma Executes.loaded (hex : Executes L part c c' r t i)
    (hload : (epilogue L part).Ran c' n s t' (.ldReduce ch u)) :
    (epilogue L part).Ran c n s t' (.ldReduce ch u) ∨
      n = c.epoch r ∧ s = r ∧ t' = t ∧ i = .ldReduce ch u := by
  rcases (hex _ _ _ _).mp hload with hold | ⟨hn, hs, ht, hi⟩
  · exact Or.inl hold
  · exact Or.inr ⟨hn, hs, ht, hi.symm⟩

/-- The store of a rank's part. -/
lemma OutInv.store (hinv : OutInv L part c) (hfresh : Fresh m₀)
    (h : (epilogue L part).Reachable m₀ c) (hstep : (epilogue L part).Step c c')
    (head : c.Head r t (.storeOut ch u)) (hex : Executes L part c c' r t (.storeOut ch u))
    (hout : c'.mem.out = write c.mem.out r u (part (c.epoch r) r u))
    (hx : ∀ s t', (c'.reg s t').x = (c.reg s t').x) : OutInv L part c' where
  stored n s v hst hno hnot := by
    have hnew : HasStored L part c' (c.epoch r) r u :=
      ⟨t, ch, (hex _ _ _ _).mpr (Or.inr ⟨rfl, rfl, rfl, rfl⟩)⟩
    rw [hout]
    by_cases hit : s = r ∧ v = u
    · obtain ⟨rfl, rfl⟩ := hit
      have hge : ¬ n < c.epoch s := fun hlt => hno _ hlt hnew
      have hle : n ≤ c.epoch s := by
        rcases hex.hasStored hst with hold | ⟨hn, -⟩
        · exact hold.epoch_le
        · exact hn.le
      obtain rfl : n = c.epoch s := by omega
      exact write_self _ _ _ _
    · rw [write_of_ne hit]
      refine hinv.stored n s v ?_ (hno.of_step hstep) fun hmc => hnot (hmc.step hstep)
      rcases hex.hasStored hst with hold | ⟨-, rfl, ch', hi⟩
      · exact hold
      · injection hi with _ huv
        exact absurd ⟨rfl, huv.symm⟩ hit
  reduced n s t' ch' v hload hnot := by
    rw [hx]
    rcases hex.loaded hload with hold | ⟨-, -, -, hi⟩
    · exact hinv.reduced n s t' ch' v hold fun hran => hnot (hran.step hstep)
    · exact absurd hi (by simp)
  multicast n s v hmc hno := by
    have hold : HasMulticast L part c n v := by
      rcases hex.hasMulticast hmc with hold | ⟨-, ch', hi⟩
      · exact hold
      · exact absurd hi (by simp)
    rw [hout]
    by_cases hit : s = r ∧ v = u
    · obtain ⟨rfl, rfl⟩ := hit
      have hnew : HasStored L part c' (c.epoch s) s v :=
        ⟨t, ch, (hex _ _ _ _).mpr (Or.inr ⟨rfl, rfl, rfl, rfl⟩)⟩
      have hge : ¬ n < c.epoch s := fun hlt => hno _ hlt hnew
      have hle := (hasStored_of_hasMulticast hfresh h hold s).epoch_le
      obtain rfl : n = c.epoch s := by omega
      exact absurd hold (not_hasMulticast_of_head hfresh h head)
    · rw [write_of_ne hit]
      exact hinv.multicast n s v hold (hno.of_step hstep)

/-- The load of a unit from all ranks. -/
lemma OutInv.load (hinv : OutInv L part c) (hworld : 0 < world) (hpads : HasPads B world)
    (hfresh : Fresh m₀) (h : (epilogue L part).Reachable m₀ c) (hstep : (epilogue L part).Step c c')
    (head : c.Head r t (.ldReduce ch u)) (hex : Executes L part c c' r t (.ldReduce ch u))
    (hout : c'.mem.out = c.mem.out)
    (hself : (c'.reg r t).x = Function.update (c.reg r t).x u (∑ s, c.mem.out s u))
    (hx : ∀ s t', ¬ (s = r ∧ t' = t) → (c'.reg s t').x = (c.reg s t').x) :
    OutInv L part c' where
  stored n s v hst hno hnot := by
    rw [hout]
    refine hinv.stored n s v ?_ (hno.of_step hstep) fun hmc => hnot (hmc.step hstep)
    exact (hex.hasStored hst).resolve_right fun ⟨_, _, _, hi⟩ => absurd hi (by simp)
  reduced n s t' ch' v hload hnot := by
    have hsum : ∑ q, c.mem.out q u = ∑ q, part (c.epoch r) q u := by
      refine Finset.sum_congr rfl fun q _ => ?_
      exact hinv.stored _ q u (hasStored_of_head hfresh h head (Or.inl rfl) q)
        (notStoredAfter_of_head hfresh h head (Or.inl rfl) q)
        (not_hasMulticast_of_load hworld hpads h head)
    by_cases hit : s = r ∧ t' = t
    · obtain ⟨rfl, rfl⟩ := hit
      -- a thread holds units of its current launch only
      have hepoch : n = c.epoch s := by
        rcases hex.loaded hload with hold | ⟨hn, -⟩
        · refine hold.epoch_le.eq_of_not_lt fun hlt => hnot ?_
          have hdone : Done c n s t' (.stMulticast ch' v) := Or.inl hlt
          exact ⟨stMulticast_of_reduction hold.1 (Or.inl rfl), hdone.step hstep⟩
        · exact hn
      subst hepoch
      rw [hself]
      by_cases hv : v = u
      · subst hv
        rw [Function.update_self, hsum]
      · rw [Function.update_of_ne hv]
        refine hinv.reduced _ s t' ch' v ?_ fun hran => hnot (hran.step hstep)
        refine (hex.loaded hload).resolve_right fun ⟨_, _, _, hi⟩ => ?_
        injection hi with _ huv
        exact hv huv.symm
    · rw [hx s t' hit]
      refine hinv.reduced n s t' ch' v ?_ fun hran => hnot (hran.step hstep)
      exact (hex.loaded hload).resolve_right fun ⟨_, hs, ht, _⟩ => hit ⟨hs, ht⟩
  multicast n s v hmc hno := by
    rw [hout]
    refine hinv.multicast n s v ?_ (hno.of_step hstep)
    exact (hex.hasMulticast hmc).resolve_right fun ⟨_, _, hi⟩ => absurd hi (by simp)

/-- The multicast of a unit to all ranks. -/
lemma OutInv.store_multicast (hinv : OutInv L part c) (hfresh : Fresh m₀)
    (h : (epilogue L part).Reachable m₀ c) (hstep : (epilogue L part).Step c c')
    (head : c.Head r t (.stMulticast ch u))
    (hex : Executes L part c c' r t (.stMulticast ch u))
    (hout : c'.mem.out = fun s => Function.update (c.mem.out s) u ((c.reg r t).x u))
    (hx : ∀ s t', (c'.reg s t').x = (c.reg s t').x) : OutInv L part c' where
  stored n s v hst hno hnot := by
    have hold : HasStored L part c n s v :=
      (hex.hasStored hst).resolve_right fun ⟨_, _, _, hi⟩ => absurd hi (by simp)
    have hv : v ≠ u := by
      rintro rfl
      -- the unit is stored in this launch and in no later one, so its launch is this one
      have hthis := hasStored_of_head hfresh h head (Or.inr rfl) s
      have hge : ¬ n < c.epoch r := fun hlt => hno _ hlt (hthis.step hstep)
      have hle : ¬ c.epoch r < n := fun hlt =>
        notStoredAfter_of_head hfresh h head (Or.inr rfl) s n hlt hold
      obtain rfl : n = c.epoch r := by omega
      exact hnot ⟨r, t, ch, (hex _ _ _ _).mpr (Or.inr ⟨rfl, rfl, rfl, rfl⟩)⟩
    simp only [hout, Function.update_of_ne hv]
    exact hinv.stored n s v hold (hno.of_step hstep) fun hmc => hnot (hmc.step hstep)
  reduced n s t' ch' v hload hnot := by
    rw [hx]
    rcases hex.loaded hload with hold | ⟨-, -, -, hi⟩
    · exact hinv.reduced n s t' ch' v hold fun hran => hnot (hran.step hstep)
    · exact absurd hi (by simp)
  multicast n s v hmc hno := by
    by_cases hv : v = u
    · subst hv
      have hthis := hasStored_of_head hfresh h head (Or.inr rfl) s
      have hge : ¬ n < c.epoch r := fun hlt => hno _ hlt (hthis.step hstep)
      have hle : ¬ c.epoch r < n := by
        intro hlt
        rcases hex.hasMulticast hmc with hold | ⟨hn, -⟩
        · exact notStoredAfter_of_head hfresh h head (Or.inr rfl) s n hlt
            (hasStored_of_hasMulticast hfresh h hold s)
        · exact hlt.ne' hn
      obtain rfl : n = c.epoch r := by omega
      simp only [hout, Function.update_self]
      have hpair := pair_prog (Config.Head.mem_prog h head)
      exact hinv.reduced _ r t ch v (head.before_of_pair (epilogue_staged L part) h hpair)
        head.not_ran
    · simp only [hout, Function.update_of_ne hv]
      refine hinv.multicast n s v ?_ (hno.of_step hstep)
      refine (hex.hasMulticast hmc).resolve_right fun ⟨_, _, hi⟩ => ?_
      injection hi with _ huv
      exact hv huv.symm

/-- An operation that touches neither the output nor the loaded units. -/
lemma OutInv.quiet (hinv : OutInv L part c) (hstep : (epilogue L part).Step c c')
    (hex : Executes L part c c' r t i) (hst : ∀ ch u, i ≠ .storeOut ch u)
    (hred : ∀ ch u, ¬ IsReduction ch u i) (hout : c'.mem.out = c.mem.out)
    (hx : ∀ s t', (c'.reg s t').x = (c.reg s t').x) : OutInv L part c' where
  stored n s u hs hno hnot := by
    rw [hout]
    refine hinv.stored n s u ?_ (hno.of_step hstep) fun hmc => hnot (hmc.step hstep)
    exact (hex.hasStored hs).resolve_right fun ⟨_, _, ch, hi⟩ => hst ch u hi
  reduced n s t' ch u hload hnot := by
    rw [hx]
    refine hinv.reduced n s t' ch u ?_ fun hran => hnot (hran.step hstep)
    exact (hex.loaded hload).resolve_right fun ⟨_, _, _, hi⟩ => hred ch u (Or.inl hi)
  multicast n s u hmc hno := by
    rw [hout]
    refine hinv.multicast n s u ?_ (hno.of_step hstep)
    exact (hex.hasMulticast hmc).resolve_right fun ⟨_, ch, hi⟩ => hred ch u (Or.inr hi)

/-- The start of a launch, which clears the registers of threads that are through with them. -/
lemma OutInv.next (hinv : OutInv L part c)
    (hran : ∀ n r' t' j, (epilogue L part).Ran c' n r' t' j ↔ (epilogue L part).Ran c n r' t' j)
    (idle : ∀ t, c.rest r t = []) (hout : c'.mem.out = c.mem.out)
    (hx : ∀ s ≠ r, c'.reg s = c.reg s) : OutInv L part c' := by
  have hstored : ∀ n s u, HasStored L part c' n s u ↔ HasStored L part c n s u := fun n s u =>
    exists_congr fun t => exists_congr fun ch => hran _ _ _ _
  have hmulticast : ∀ n u, HasMulticast L part c' n u ↔ HasMulticast L part c n u := fun n u =>
    exists_congr fun s => exists_congr fun t => exists_congr fun ch => hran _ _ _ _
  refine ⟨fun n s u hst hno hnot => ?_, fun n s t' ch u hload hnot => ?_,
    fun n s u hmc hno => ?_⟩
  · rw [hout]
    exact hinv.stored n s u ((hstored _ _ _).mp hst)
      (fun k hk hs => hno k hk ((hstored _ _ _).mpr hs)) fun hmc => hnot ((hmulticast _ _).mpr hmc)
  · replace hload := (hran _ _ _ _).mp hload
    replace hnot := fun hst => hnot ((hran _ _ _ _).mpr hst)
    by_cases hs : s = r
    · subst hs
      have hmem := stMulticast_of_reduction hload.1 (Or.inl rfl)
      rcases hload.2 with hlt | ⟨rfl, -⟩
      · exact absurd ⟨hmem, Or.inl hlt⟩ hnot
      · exact absurd (Machine.Ran.of_idle (idle t') hmem) hnot
    · rw [hx s hs]
      exact hinv.reduced n s t' ch u hload hnot
  · rw [hout]
    exact hinv.multicast n s u ((hmulticast _ _).mp hmc)
      fun k hk hs => hno k hk ((hstored _ _ _).mpr hs)

/-- What the operations other than the three on the output leave alone. -/
lemma effect_out (L : Launches B) (part : ℕ → Fin world → ℕ → V) (c : EpilogueConfig B world V)
    (r : Fin world) (t : B.Thread) (hst : ∀ ch u, i ≠ .storeOut ch u)
    (hred : ∀ ch u, ¬ IsReduction ch u i) :
    (effect L part c r t i).1.out = c.mem.out ∧ (effect L part c r t i).2.x = (c.reg r t).x := by
  cases i with
  | storeOut ch u => exact absurd rfl (hst ch u)
  | ldReduce ch u => exact absurd (Or.inl rfl) (hred ch u)
  | stMulticast ch u => exact absurd (Or.inr rfl) (hred ch u)
  | signal b s => simp only [effect]; split <;> exact ⟨rfl, rfl⟩
  | setDone => simp only [effect]; split <;> exact ⟨rfl, rfl⟩
  | _ => exact ⟨rfl, rfl⟩

/-- The invariant holds in every reachable configuration. -/
theorem outInv (hworld : 0 < world) (hpads : HasPads B world) (hfresh : Fresh m₀)
    (h : (epilogue L part).Reachable m₀ c) : OutInv L part c := by
  induction h with
  | init =>
    have hnone : ∀ n r t i, ¬ (epilogue L part).Ran ((epilogue L part).init m₀) n r t i :=
      fun n r t i => Epochs.not_ran_init (epilogue_staged L part)
    exact ⟨fun n s u ⟨t, ch, hran⟩ => absurd hran (hnone _ _ _ _),
      fun n r t ch u hran => absurd hran (hnone _ _ _ _),
      fun n s u ⟨r, t, ch, hran⟩ => absurd hran (hnone _ _ _ _)⟩
  | @step c c' hc hstep ih =>
    cases hc.stepOf (epilogue_staged L part) hstep with
    | next r idle mem _ others _ _ ran => exact ih.next ran idle (by rw [mem]; rfl) others
    | exec r t i head _ mem reg others _ ran =>
      have hx : (effect L part c r t i).2.x = (c.reg r t).x →
          ∀ s t', (c'.reg s t').x = (c.reg s t').x := by
        intro hself s t'
        by_cases hit : s = r ∧ t' = t
        · obtain ⟨rfl, rfl⟩ := hit
          rw [reg]
          exact hself
        · rw [others s t' hit]
      by_cases hst : ∃ ch u, i = .storeOut ch u
      · obtain ⟨ch, u, rfl⟩ := hst
        exact ih.store hfresh hc hstep head ran (by rw [mem]; rfl) (hx rfl)
      by_cases hred : ∃ ch u, IsReduction ch u i
      · obtain ⟨ch, u, rfl | rfl⟩ := hred
        · exact ih.load hworld hpads hfresh hc hstep head ran (by rw [mem]; rfl) (by rw [reg]; rfl)
            fun s t' hne => by rw [others s t' hne]
        · exact ih.store_multicast hfresh hc hstep head ran (by rw [mem]; rfl) (hx rfl)
      · replace hst := fun ch u hi => hst ⟨ch, u, hi⟩
        replace hred := fun ch u hi => hred ⟨ch, u, hi⟩
        have heff := effect_out L part c r t hst hred
        exact ih.quiet hstep ran hst hred (by rw [mem]; exact heff.1) (hx heff.2)

/-! ## The result -/

/-- Rank `r` has finished launch `n`. -/
def Finished (c : EpilogueConfig B world V) (n : ℕ) (r : Fin world) : Prop :=
  n < c.epoch r ∨ n = c.epoch r ∧ ∀ t, c.rest r t = []

/-- When one rank has finished a launch, the launch's output has been multicast. -/
lemma hasMulticast_of_finished (hworld : 0 < world) (hpads : HasPads B world) (hfresh : Fresh m₀)
    (h : (epilogue L part).Reachable m₀ c) (hn : 0 < n) (hu : u < (L.args n).outMv B)
    (hfin : Finished c n r) : HasMulticast L part c n u := by
  obtain ⟨⟨s, t, ch⟩, hmem, -⟩ := exists_unique_reduction part hworld hpads hn hu
  have hst := stMulticast_of_reduction hmem (Or.inl rfl)
  refine ⟨s, t, ch, hst, ?_⟩
  rcases hfin with hlt | ⟨rfl, hidle⟩
  · exact reduced_of_epoch_lt hfresh h hlt hst (Or.inr rfl)
  · have hadm := L.admitted (c.epoch r)
    have hblock : (L.args (c.epoch r)).ncomp B < B.gridSize := by
      have := hadm.ncomm_pos
      have := hadm.ncomm_lt
      unfold ncomp
      omega
    let t₀ : B.Thread := B.lead ⟨(L.args (c.epoch r)).ncomp B, hblock⟩
    have hawait : Instr.awaitDone ∈ (epilogue L part).prog (c.epoch r) r t₀ :=
      mem_prog.mpr ⟨hn, Nat.lt_irrefl _, rfl⟩
    have hdone : Done c (c.epoch r) r t₀ .awaitDone :=
      Or.inr ⟨rfl, by rw [hidle]; exact List.not_mem_nil⟩
    exact reduced_of_allArrived h (allArrived_of_awaitDone hfresh h hawait hdone s) hst
      (Or.inr rfl)

/-- The all-reduce is correct and stays so: in every configuration in which rank `r` has finished
launch `n`, however far the other ranks are, each unit of the output of launch `n` holds on rank `r`
the sum of the parts of all ranks, until rank `r` itself stores the unit in a later launch. -/
theorem out_of_finished (hworld : 0 < world) (hpads : HasPads B world) (hfresh : Fresh m₀)
    (h : (epilogue L part).Reachable m₀ c) (hn : 0 < n) (hu : u < (L.args n).outMv B)
    (hfin : Finished c n r) (hno : NotStoredAfter L part c n r u) :
    c.mem.out r u = ∑ q, part n q u :=
  (outInv hworld hpads hfresh h).multicast n r u
    (hasMulticast_of_finished hworld hpads hfresh h hn hu hfin) hno

/-- The second launch of `twoLaunches` on rank 0, once the run is over. -/
theorem out_of_finished_twoRanks : ∃ c, twoRanks.Reachable (zeroMem 2 ℕ) c ∧
    ∀ u, u < (twoLaunches.args 2).outMv deepseekTP → c.mem.out 0 u = ∑ q : Fin 2, (2 + q + u) := by
  obtain ⟨run, hrun⟩ := twoRanks.exists_maximalRun (zeroMem 2 ℕ)
  obtain ⟨K, hK⟩ := hrun.exists_stuck
  have hreach := hrun.reachable K
  obtain ⟨hepoch, hidle⟩ := finished_of_stuck fresh_zeroMem hreach (hK K le_rfl) 0
  refine ⟨run K, hreach, fun u hu => ?_⟩
  refine out_of_finished (by norm_num) (by decide) fresh_zeroMem hreach (by norm_num) hu
    (Or.inr ⟨hepoch.symm, hidle⟩) fun k hk hst => ?_
  have hle := hst.epoch_le
  rw [hepoch] at hle
  exact absurd hk (not_lt.mpr hle)

/-- A unit that no launch covers keeps what it held. -/
theorem out_of_uncovered (h : (epilogue L part).Reachable m₀ c)
    (hu : ∀ n, 0 < n → (L.args n).outMv B ≤ u) (r : Fin world) : c.mem.out r u = m₀.out r u := by
  induction h with
  | init => rfl
  | @step c c' hc hstep ih =>
    rw [← ih]
    cases hc.stepOf (epilogue_staged L part) hstep with
    | next s _ mem _ _ _ _ _ => rw [mem]; rfl
    | exec s t i head _ mem _ _ _ _ =>
      have hmem := Config.Head.mem_prog hc head
      have hout : ∀ ch v, InChunk L (c.epoch s) ch v → u ≠ v := by
        rintro ch v hin rfl
        have := hu _ (mem_prog.mp hmem).1
        have := hin.lt_outMv
        omega
      rw [mem]
      by_cases hst : ∃ ch v, i = .storeOut ch v
      · obtain ⟨ch, v, rfl⟩ := hst
        exact write_of_ne fun heq => hout ch v (inChunk_of_store hmem) heq.2
      by_cases hred : ∃ ch v, IsReduction ch v i
      · obtain ⟨ch, v, hi⟩ := hred
        have hne := hout ch v (inChunk_of_reduction hmem hi)
        rcases hi with rfl | rfl
        · rfl
        · exact Function.update_of_ne hne _ _
      · exact congrFun (congrFun (effect_out L part c s t (fun ch v hi => hst ⟨ch, v, hi⟩)
          fun ch v hi => hred ⟨ch, v, hi⟩).1 r) u

/-- Launch `n` is the last of the sequence whose output reaches unit `u`. -/
structure LastCover (L : Launches B) (n u : ℕ) : Prop where
  pos : 0 < n
  le_count : n ≤ L.count
  covers : u < (L.args n).outMv B
  last : ∀ k, n < k → k ≤ L.count → (L.args k).outMv B ≤ u

/-- What is left when all launches are over: rank `r` is through with the last launch, and every
unit of its output holds the sum of the parts of the last launch that covers the unit. -/
structure Reduced (L : Launches B) (part : ℕ → Fin world → ℕ → V) (c : EpilogueConfig B world V)
    (r : Fin world) : Prop where
  epoch : c.epoch r = L.count
  idle : ∀ t, c.rest r t = []
  out : ∀ n u, LastCover L n u → c.mem.out r u = ∑ q, part n q u

/-- A configuration in which nothing can move holds the result on every rank. -/
lemma reduced_of_stuck (hworld : 0 < world) (hpads : HasPads B world) (hfresh : Fresh m₀)
    (h : (epilogue L part).Reachable m₀ c) (hstuck : ∀ c', ¬ (epilogue L part).Step c c')
    (r : Fin world) : Reduced L part c r := by
  obtain ⟨hepoch, hidle⟩ := finished_of_stuck hfresh h hstuck r
  refine ⟨hepoch, hidle, fun n u hlast => ?_⟩
  have hfin : Finished c n r := by
    rcases hlast.le_count.lt_or_eq with hlt | heq
    · exact Or.inl (hepoch ▸ hlt)
    · exact Or.inr ⟨heq.trans hepoch.symm, hidle⟩
  refine (outInv hworld hpads hfresh h).multicast n r u
    (hasMulticast_of_finished hworld hpads hfresh h hlast.pos hlast.covers hfin) fun k hk hst => ?_
  obtain ⟨t, ch, hran⟩ := id hst
  have hle : k ≤ L.count := hst.epoch_le.trans (h.epoch_le r)
  have hcover := (inChunk_of_store hran.1).lt_outMv
  have := hlast.last k hk hle
  omega

/-- Every run of the fused epilogue, whatever the interleaving, comes to an end in which every rank
is through with all launches and holds the reduced output. -/
theorem fused_epilogue_total (hworld : 0 < world) (hpads : HasPads B world) (hfresh : Fresh m₀)
    {run : ℕ → EpilogueConfig B world V} (hrun : (epilogue L part).MaximalRun m₀ run) :
    ∃ K, ∀ k, K ≤ k → ∀ r, Reduced L part (run k) r := by
  obtain ⟨K, hK⟩ := hrun.exists_stuck
  exact ⟨K, fun k hk => reduced_of_stuck hworld hpads hfresh (hrun.reachable k) (hK k hk)⟩

/-- Two ranks with two launches. -/
theorem fused_epilogue_total_twoRanks : ∃ run, twoRanks.MaximalRun (zeroMem 2 ℕ) run ∧
    ∃ K, ∀ k, K ≤ k → ∀ r, Reduced twoLaunches (fun n r u => n + r + u) (run k) r := by
  obtain ⟨run, hrun⟩ := twoRanks.exists_maximalRun (zeroMem 2 ℕ)
  exact ⟨run, hrun, fused_epilogue_total (by norm_num) (by decide) fresh_zeroMem hrun⟩

end UnimonoMoe
