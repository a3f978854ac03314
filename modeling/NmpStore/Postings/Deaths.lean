import NmpStore.Postings.Merge

/-! # Deaths

A batch of deaths goes to the run that covers the keys.
-/

namespace NmpStore.Postings

variable [ShardHash]

structure LiveKeys (run : Run) (keys : List EventKey) : Prop where
  nodup : keys.Nodup
  mem : ∀ key ∈ keys, key ∈ run.dictionary.map Prod.fst
  live : ∀ key ∈ keys, key ∉ run.deadKeys

def Run.losing (run : Run) (keys : List EventKey) : RunMeta :=
  { run.runMeta with liveEvents := run.dictionary.length - (run.deadKeys.length + keys.length) }

structure Loses (p : Packed) (runId : Nat) (run : Run) (keys : List EventKey) (new : Option Run) (p' : Packed) : Prop where
  replaces : Replaces p [runId] new p'
  catalogOk : CatalogOk p'
  level_eq : ∀ r, new = some r → r.runMeta.level = run.runMeta.level
  max_le : ∀ r, new = some r → r.runMeta.maxEventKey ≤ run.runMeta.maxEventKey
  id_or : ∀ r, new = some r → r.runMeta.runId = runId ∨ r.runMeta.runId = p.nextId
  posts_iff : ∀ r family pfx event, new = some r →
    (r.PostsLive family pfx event ↔ run.PostsLive family pfx event ∧ event.eventKey ∉ keys)
  none_iff : new = none → ∀ family pfx event, run.PostsLive family pfx event → event.eventKey ∈ keys
  next_le : p'.nextId ≤ p.nextId + 1

structure Carrying (p : Packed) (runId : Nat) (fresh : List EventKey) (done : List Nat)
    (deaths : Table (Nat × Nat) DeadKeys) (carry : DeadKeys) : Prop where
  outside : DeathsOutside p [runId] deaths
  emptied : ∀ level ∈ done, deaths[(runId, level)]? = none
  kept : ∀ level ∉ done, deaths[(runId, level)]? = p.deaths[(runId, level)]?
  keys : carry.keys.Perm (fresh ++ done.flatMap fun level => deadList p.deaths[(runId, level)]?)

section Counter

omit [ShardHash]

variable {p : Packed}

theorem Carrying.start (h : carry.keys = fresh) :
    Carrying p r fresh [] p.deaths carry where
  outside := ⟨fun _ _ _ => rfl, fun _ _ _ h => h⟩
  emptied := by simp
  kept _ _ := rfl
  keys := by simp [h]

theorem mergeDeadBlocks_pair (pr cr : DeadKeys) : ∃ m, mergeDeadBlocks [pr, cr] = .ok (some m) ∧
    m.keys = sortedKeys (pr.keys ++ cr.keys) := by
  obtain ⟨de, hD, hk⟩ := mergeDeadBlocks_eq [pr, cr] (by simp [maxDeathBlocks])
  have hF : [pr, cr].flatMap DeadKeys.keys = pr.keys ++ cr.keys := by simp
  rw [hF] at hk
  cases de with
  | some m => exact ⟨m, hD, hk⟩
  | none =>
    obtain ⟨k, hK⟩ := exists_mem_of_ne_nil _ pr.nonempty
    have hM : k ∈ sortedKeys (pr.keys ++ cr.keys) := mem_sortedKeys.mpr (mem_append_left _ hK)
    rw [← hk] at hM
    cases hM

theorem Carrying.next {dt : Table (Nat × Nat) DeadKeys} (h : Carrying p r fresh done dt carry)
    (hL : lv ∉ done) (hP : dt[(r, lv)]? = some pr)
    (hN : (fresh ++ (done ++ [lv]).flatMap fun lv => deadList p.deaths[(r, lv)]?).Nodup)
    (hm : m.keys = sortedKeys (pr.keys ++ carry.keys)) :
    Carrying p r fresh (done ++ [lv]) (dt.erase (r, lv)) m := by
  have ha : (pr.keys ++ carry.keys).Perm
      (fresh ++ (done ++ [lv]).flatMap fun lv => deadList p.deaths[(r, lv)]?) := by
    rw [h.kept lv hL] at hP
    rw [List.flatMap_append, ← append_assoc]
    refine List.perm_append_comm.trans (h.keys.append ?_)
    simp [hP, deadList]
  refine ⟨⟨fun id l hY => ?_, fun id l de hA => ?_⟩, fun l hl => ?_, fun l hl => ?_, ?_⟩
  · rw [get_erase, if_neg]
    · exact h.outside.same id l hY
    · rintro hE
      exact hY (by simp [(Prod.mk.inj hE).1])
  · rw [get_erase] at hA
    split at hA
    · cases hA
    · exact h.outside.sub id l de hA
  · rw [get_erase]
    split
    · rfl
    rename_i hn
    rcases mem_append.mp hl with hl | hl
    · exact h.emptied l hl
    · exact absurd (by rw [mem_singleton.mp hl]) hn
  · rw [get_erase, if_neg]
    · exact h.kept l fun hM => hl (mem_append_left _ hM)
    · rintro hE
      exact hl (mem_append_right _ (by simp [(Prod.mk.inj hE).2]))
  · rw [hm]
    exact (sortedKeys_perm (ha.nodup_iff.mpr hN)).trans ha

end Counter

section OneRun

variable {p p' : Packed} {run : Run} {levels : List Nat}

theorem RunOk.length_lt (ho : RunOk run) (hk : LiveKeys run fresh) :
    (run.deadKeys ++ fresh).Nodup ∧ run.deadKeys.length + fresh.length ≤ run.dictionary.length := by
  have hN : (run.deadKeys ++ fresh).Nodup :=
    nodup_append.mpr ⟨ho.deadNodup, hk.nodup, fun a ha b hb hE => hk.live b hb (hE ▸ ha)⟩
  refine ⟨hN, ?_⟩
  have hB : (run.deadKeys ++ fresh).Subperm (run.dictionary.map Prod.fst) := subperm_of_subset hN fun k hK =>
    (mem_append.mp hK).elim (ho.dead_mem k) (hk.mem k)
  simpa using hB.length_le

section
omit [ShardHash]

theorem flatMap_blocks (hR : p.run? r = some run) (levels : List Nat) :
    (levels.flatMap fun l => deadList p.deaths[(r, l)]?) = levels.flatMap fun l => deadList (run.blocks l) := by
  rw [(run?_some.mp hR).2.2.1]

def Run.withBlock (run : Run) (keys : List EventKey) (done : List Nat) (level : Nat) (carry : DeadKeys) : Run :=
  { run with
    runMeta := run.losing keys
    blocks := fun l => if l ∈ done then none else if l = level then some carry else run.blocks l }

theorem withBlock_deadKeys (hS : done ++ lv :: rest = List.range maxDeathBlocks) (hF : run.blocks lv = none)
    (hC : carry.keys.Perm (fresh ++ done.flatMap fun lv => deadList (run.blocks lv))) :
    (run.withBlock fresh done lv carry).deadKeys.Perm (fresh ++ run.deadKeys) := by
  have hN : (done ++ lv :: rest).Nodup := hS ▸ List.nodup_range
  obtain ⟨-, hT, hA⟩ := nodup_append.mp hN
  have hL : lv ∉ done := fun hM => hA lv hM lv (.head _) rfl
  have hD : done.flatMap (fun l => deadList ((run.withBlock fresh done lv carry).blocks l)) = [] := by
    refine List.flatMap_eq_nil_iff.mpr fun l hl => ?_
    simp [Run.withBlock, hl, deadList]
  have hR : rest.flatMap (fun l => deadList ((run.withBlock fresh done lv carry).blocks l)) =
      rest.flatMap fun l => deadList (run.blocks l) := by
    refine List.flatMap_congr fun l hl => ?_
    have hY : l ∉ done := fun hM => hA l hM l (.tail _ hl) rfl
    have hn : l ≠ lv := fun hE => (nodup_cons.mp hT).1 (hE ▸ hl)
    simp [Run.withBlock, hY, hn]
  have hH : deadList ((run.withBlock fresh done lv carry).blocks lv) = carry.keys := by
    simp [Run.withBlock, hL, deadList]
  simp only [Run.deadKeys, ← hS, List.flatMap_append, flatMap_cons, hD, hR, hH, hF]
  simpa [deadList] using hC.append_right _

end

theorem RunOk.withBlock (ho : RunOk run) (hk : LiveKeys run fresh)
    (hL : run.deadKeys.length + fresh.length < run.dictionary.length)
    (hP : (run.withBlock fresh done l carry).deadKeys.Perm (fresh ++ run.deadKeys)) :
    RunOk (run.withBlock fresh done l carry) where
  keysSorted := ho.keysSorted
  idsNodup := ho.idsNodup
  min_pos := ho.min_pos
  within := ho.within
  deadNodup := hP.nodup_iff.mpr (List.perm_append_comm.nodup_iff.mp (ho.length_lt hk).1)
  dead_mem k hK := (mem_append.mp (hP.mem_iff.mp hK)).elim (hk.mem k) (ho.dead_mem k)
  live_eq := by
    rw [hP.length_eq, length_append]
    simp only [Run.withBlock, Run.losing]
    omega
  live_pos := by
    simp only [Run.withBlock, Run.losing]
    omega
  segmentOk := ho.segmentOk
  posted := ho.posted

theorem replaces_withBlock (hp : CatalogOk p) (hR : p.run? r = some run) (hc : Carrying p r fresh done deaths carry)
    (hD : lvl ∉ done) (hL : lvl < maxDeathBlocks) :
    Replaces p [r] (some (run.withBlock fresh done lvl carry))
      { p with
        deaths := deaths.insert (r, lvl) carry
        runMeta := p.runMeta.insert r (run.losing fresh) } := by
  obtain ⟨hM, hd, hB, hs⟩ := run?_some.mp hR
  have hI : (run.losing fresh).runId = r := hp.runId_eq hR
  have ha : ∀ id, runsAfter p [r] (some (run.withBlock fresh done lvl carry)) id =
      if r = id then some (run.withBlock fresh done lvl carry) else if id ∈ [r] then none else p.run? id := by
    intro id
    rw [← hI]
    rfl
  refine ⟨fun id => ?_, ⟨fun id => ?_, fun k id => ?_, hp.indexed.next_pos, fun hA => ?_, hp.indexed.segments,
    fun hA => ?_⟩, le_rfl⟩
  · rw [ha]
    by_cases hS : r = id
    · subst hS
      rw [if_pos rfl, run?_some]
      refine ⟨by simp [Run.withBlock], hd, ?_, hs⟩
      funext l
      simp only [Run.withBlock, hB, get_insert, Prod.mk.injEq, true_and]
      by_cases hl : l ∈ done
      · have hN : lvl ≠ l := fun hE => hD (hE ▸ hl)
        simp [hl, hN, hc.emptied l hl]
      by_cases hE : l = lvl
      · simp [hE, hD]
      · simp [hl, hE, Ne.symm hE, hc.kept l hl]
    · have hY : id ∉ [r] := by simpa using Ne.symm hS
      rw [if_neg hS, if_neg hY]
      refine run?_congr ?_ rfl (fun l => ?_) fun _ _ => rfl
      · rw [get_insert, if_neg hS]
      · rw [get_insert, if_neg (by simp [hS]), hc.outside.same id l hY]
  · rw [get_insert]
    split
    · rename_i hS
      subst hS
      simp [hd]
    · exact hp.indexed.dictionary id
  · rw [hp.indexed.byMin, get_insert]
    split
    · rename_i hS
      subst hS
      simp [hM, Run.losing]
    · rfl
  · rcases insert_some.mp hA with ⟨hS, -⟩ | ⟨-, hA⟩
    · exact hS ▸ hp.run_lt_next hR
    · exact hp.indexed.ids hA
  · rcases insert_some.mp hA with ⟨hS, -⟩ | ⟨-, hA⟩
    · cases hS
      exact ⟨(hp.run_lt_next hR).2, hL⟩
    · exact hp.indexed.deaths (hc.outside.sub _ _ _ hA)

theorem loses_withBlock (hp : CatalogOk p) (hR : p.run? rid = some run) (hk : LiveKeys run fresh)
    (hL : run.deadKeys.length + fresh.length < run.dictionary.length) (hc : Carrying p rid fresh done deaths carry)
    (hS : done ++ l :: rest = List.range maxDeathBlocks) (hF : deaths[(rid, l)]? = none) :
    Loses p rid run fresh (some (run.withBlock fresh done l carry))
      { p with
        deaths := deaths.insert (rid, l) carry
        runMeta := p.runMeta.insert rid (run.losing fresh) } := by
  have hM : l ∈ List.range maxDeathBlocks := hS ▸ mem_append_right _ (.head _)
  have hN : (done ++ l :: rest).Nodup := hS ▸ List.nodup_range
  have hD : l ∉ done := fun hM => (nodup_append.mp hN).2.2 l hM l (.head _) rfl
  have hP := replaces_withBlock hp hR hc hD (List.mem_range.mp hM)
  have hm : (run.withBlock fresh done l carry).deadKeys.Perm (fresh ++ run.deadKeys) := by
    refine withBlock_deadKeys hS ?_ (flatMap_blocks hR done ▸ hc.keys)
    rw [(run?_some.mp hR).2.2.1]
    exact (hc.kept l hD).symm.trans hF
  refine ⟨hP, hp.replace hP fun r hr => ?_, fun r hr => ?_, fun r hr => ?_, fun r hr => ?_,
    fun r f pf ev hr => ?_, by simp, Nat.le_succ _⟩
  · cases hr
    refine ⟨(hp.runOk hR).withBlock hk hL hm, fun id o hK => ?_⟩
    have hn : rid ≠ id := fun hE => hK.2.1 (by simp [hE])
    have ho := hp.ordered hR hK.1 hn
    exact ho
  · cases hr
    rfl
  · cases hr
    exact le_rfl
  · cases hr
    have hI := hp.runId_eq hR
    exact .inl hI
  · cases hr
    have hd : ∀ k, k ∉ (run.withBlock fresh done l carry).deadKeys ↔ k ∉ fresh ∧ k ∉ run.deadKeys := by
      intro k
      rw [hm.mem_iff, mem_append, not_or]
    simp only [Run.PostsLive, hd]
    exact ⟨fun h => ⟨⟨h.1, h.2.2⟩, h.2.1⟩, fun h => ⟨h.1.1, h.2, h.1.2⟩⟩

def Run.rewriteInput (run : Run) (keys : List EventKey) (carry : DeadKeys) : CohortRun :=
  ⟨run.losing keys, some carry, run.dictionary⟩

theorem rewriteInput_draws (hp : CatalogOk p) (hR : p.run? r = some run)
    (hC : carry.keys.Perm (fresh ++ run.deadKeys)) : Draws p (run.rewriteInput fresh carry) run := by
  have hI : (run.losing fresh).runId = r := hp.runId_eq hR
  refine ⟨by rw [Run.rewriteInput, hI]; exact hR, rfl, rfl, rfl, fun k hK => ?_⟩
  exact isDead_iff.mpr (hC.mem_iff.mpr (mem_append_right _ hK))

theorem rewriteInput_mergeInputs (hp : CatalogOk p) (hR : p.run? r = some run)
    (hC : carry.keys.Perm (fresh ++ run.deadKeys)) : MergeInputs p [run.rewriteInput fresh carry] := by
  refine ⟨fun i hI => ?_, List.pairwise_singleton ..⟩
  obtain rfl := mem_singleton.mp hI
  exact ⟨run, rewriteInput_draws hp hR hC⟩

theorem rewriteRunWithoutDead_ok (hp : CatalogOk p) (hi : LiveIds p) (hR : p.run? rid = some run)
    (hU : DeathsOutside p [rid] deaths)
    (hC : carry.keys.Perm (fresh ++ run.deadKeys))
    (ho : rewriteRunWithoutDead { p with deaths := deaths } (run.losing fresh) carry = .ok p') :
    ∃ n, Loses p rid run fresh (some n) p' := by
  have hI := rewriteInput_mergeInputs hp hR hC
  have ha := rewriteInput_draws hp hR hC
  have hd : (run.losing fresh).runId = rid := hp.runId_eq hR
  have hs : mergedIds [run.rewriteInput fresh carry] = [rid] := congrArg (fun i => [i]) hd
  simp only [rewriteRunWithoutDead, bind_ok] at ho
  obtain ⟨⟨o, q⟩, hS, ho⟩ := ho
  rcases streamCompactionCohort_ok (p := { p with deaths := deaths }) hp.metas (hU.indexed hp.indexed)
    (hI.cohort hp deaths) (hI.old hp) hS with ⟨rfl, -, -⟩ | ⟨o, rfl, hM⟩
  · simp at ho
  have hn := hM.range hp hI
  simp only [mem_singleton, exists_eq_left] at hn
  have h1 : (run.losing fresh).level = run.runMeta.level := rfl
  obtain ⟨hE, hc⟩ := hM.replaces hp hi hI (hs ▸ hU) run.runMeta.level (by
    intro id ol hO hY
    rw [hs, mem_singleton] at hY
    rcases hp.ordered hR hO (Ne.symm hY) with hl | hl
    · exact .inl ⟨hn.2.trans_lt hl.1, hl.2⟩
    · exact .inr ⟨hl.1.trans_le hn.1, hl.2⟩) ho
  rw [hs] at hE
  refine ⟨_, hE, hc, fun r hr => ?_, fun r hr => ?_, fun r hr => ?_, fun r f pf ev hr => ?_, by simp, ?_⟩
  · cases hr
    rfl
  · cases hr
    exact hn.2
  · cases hr
    exact .inr hM.runId_eq
  · cases hr
    have hD : ∀ k, isDead (some carry) k = false ↔ k ∉ fresh ∧ k ∉ run.deadKeys := by
      intro k
      rw [← not_eq_true, isDead_iff, ← not_or, ← mem_append, ← hC.mem_iff]
      rfl
    rw [Run.PostsLive, written_deadKeys, hM.posts_written hp hI]
    constructor
    · rintro ⟨⟨ip, hN, r, hr, hP, hL⟩, -⟩
      obtain rfl := mem_singleton.mp hN
      cases hr.stored.symm.trans ha.stored
      exact ⟨⟨hP, ((hD _).mp hL).2⟩, ((hD _).mp hL).1⟩
    · rintro ⟨⟨hP, hA⟩, hY⟩
      exact ⟨⟨_, mem_singleton.mpr rfl, run, ha, hP, (hD _).mpr ⟨hY, hA⟩⟩, not_mem_nil⟩
  · obtain ⟨-, rfl⟩ := insertRunCatalog_ok.mp ho
    simp only [Packed.nextId, deleteRun, hM.nextRunId, getD_some]
    exact le_rfl

theorem exists_live_entry (ho : RunOk run) (hl : run.deadKeys.length + fresh.length < run.dictionary.length)
    (hC : carry.keys.Perm (fresh ++ run.deadKeys)) : cohortEntries [run.rewriteInput fresh carry] ≠ [] := by
  intro hZ
  have hA : run.dictionary.map Prod.fst ⊆ carry.keys := by
    intro k hK
    obtain ⟨e, hE, rfl⟩ := mem_map.mp hK
    have hN : (run.rewriteInput fresh carry).live = [] := by simpa [cohortEntries] using hZ
    have hD := filter_eq_nil_iff.mp hN e hE
    simp only [Run.rewriteInput, not_eq_true, Bool.not_eq_false'] at hD
    exact isDead_iff.mp hD
  have hn : (run.dictionary.map Prod.fst).Nodup := pairwise_map.mpr (ho.keysSorted.imp ne_of_lt)
  have hL := (subperm_of_subset hn hA).length_le
  rw [hC.length_eq, length_map, length_append] at hL
  omega

theorem rewriteRunWithoutDead_progress (hp : CatalogOk p) (hi : LiveIds p) (hr : Room p)
    (hS : p.nextId + 1 ≤ u64Max) (hR : p.run? r = some run)
    (hL : run.deadKeys.length + fresh.length < run.dictionary.length) (hU : DeathsOutside p [r] deaths)
    (hC : carry.keys.Perm (fresh ++ run.deadKeys)) :
    ∃ p', rewriteRunWithoutDead { p with deaths := deaths } (run.losing fresh) carry = .ok p' := by
  have hI := rewriteInput_mergeInputs hp hR hC
  obtain ⟨⟨o, q⟩, hs⟩ := hI.progress hp hr hS deaths (hU.indexed hp.indexed)
  simp only [rewriteRunWithoutDead, bind_ok]
  rcases streamCompactionCohort_ok (p := { p with deaths := deaths }) hp.metas (hU.indexed hp.indexed)
    (hI.cohort hp deaths) (hI.old hp) hs with ⟨-, -, hZ⟩ | ⟨o, rfl, hM⟩
  · exact absurd hZ (exists_live_entry (hp.runOk hR) hL hC)
  · have ho := (hM.runOk hp hi hI run.runMeta.level).metaOk
    exact ⟨_, _, hs, insertRunCatalog_ok.mpr ⟨ho, rfl⟩⟩

theorem nodup_carried (hp : CatalogOk p) (hR : p.run? r = some run) (hK : LiveKeys run fresh)
    (hL : levels.Sublist (List.range maxDeathBlocks)) :
    (fresh ++ levels.flatMap fun l => deadList p.deaths[(r, l)]?).Nodup := by
  have hA := List.perm_append_comm.nodup_iff.mp ((hp.runOk hR).length_lt hK).1
  rw [flatMap_blocks hR]
  refine hA.sublist (List.Sublist.append_left ?_ fresh)
  exact (hL.map _).flatten

omit [ShardHash] in
theorem split_level (hS : done ++ l :: levels = List.range maxDeathBlocks) : l ∉ done ∧
    (done ++ [l]).Sublist (List.range maxDeathBlocks) ∧ (done ++ [l]) ++ levels = List.range maxDeathBlocks := by
  have hN : (done ++ l :: levels).Nodup := hS ▸ List.nodup_range
  have hS' : (done ++ [l]) ++ levels = List.range maxDeathBlocks := by simpa using hS
  exact ⟨fun hM => (nodup_append.mp hN).2.2 l hM l (.head _) rfl,
    hS' ▸ List.sublist_append_left _ _, hS'⟩

theorem carryDeaths_ok (hp : CatalogOk p) (hI : LiveIds p) (hR : p.run? r = some run) (hK : LiveKeys run fresh)
    (hL : run.deadKeys.length + fresh.length < run.dictionary.length) (hc : Carrying p r fresh done deaths carry)
    (hS : done ++ levels = List.range maxDeathBlocks)
    (ho : carryDeaths (run.losing fresh) levels { p with deaths := deaths } carry = .ok p') :
    ∃ n, Loses p r run fresh (some n) p' := by
  have hi : (run.losing fresh).runId = r := hp.runId_eq hR
  induction levels generalizing done deaths carry with
  | nil =>
    rw [append_nil] at hS
    refine rewriteRunWithoutDead_ok hp hI hR hc.outside ?_ ho
    have hk := hc.keys
    rwa [flatMap_blocks hR, hS] at hk
  | cons l levels ih =>
    obtain ⟨hD, hP, hS'⟩ := split_level hS
    simp only [carryDeaths, hi] at ho
    cases hA : deaths[(r, l)]? with
    | some pr =>
      obtain ⟨m, hm, hM⟩ := mergeDeadBlocks_pair pr carry
      simp only [hA, packed, hm, Except.mapError, bind_ok, Except.ok.injEq, exists_eq_left'] at ho
      have hN := hc.next hD hA (nodup_carried hp hR hK hP) hM
      exact ih hN hS' ho
    | none =>
      simp only [hA, packed, bind_ok, mapError_ok, RunMeta.encode_ok,
        pure_ok] at ho
      obtain ⟨_, ⟨-, rfl⟩, rfl⟩ := ho
      exact ⟨_, loses_withBlock hp hR hK hL hc hS hA⟩

theorem carryDeaths_progress (hp : CatalogOk p) (hI : LiveIds p) (hr : Room p) (hs : p.nextId + 1 ≤ u64Max)
    (hR : p.run? r = some run) (hK : LiveKeys run fresh)
    (hL : run.deadKeys.length + fresh.length < run.dictionary.length) (hc : Carrying p r fresh done deaths carry)
    (hS : done ++ levels = List.range maxDeathBlocks) :
    ∃ p', carryDeaths (run.losing fresh) levels { p with deaths := deaths } carry = .ok p' := by
  have hi : (run.losing fresh).runId = r := hp.runId_eq hR
  induction levels generalizing done deaths carry with
  | nil =>
    rw [append_nil] at hS
    refine rewriteRunWithoutDead_progress hp hI hr hs hR hL hc.outside ?_
    have hk := hc.keys
    rwa [flatMap_blocks hR, hS] at hk
  | cons l levels ih =>
    obtain ⟨hD, hT, hS'⟩ := split_level hS
    simp only [carryDeaths, hi]
    cases hA : deaths[(r, l)]? with
    | some pr =>
      obtain ⟨m, hG, hM⟩ := mergeDeadBlocks_pair pr carry
      simp only [packed, hG, Except.mapError, bind_ok, Except.ok.injEq, exists_eq_left']
      exact ih (hc.next hD hA (nodup_carried hp hR hK hT) hM) hS'
    | none =>
      have hP : (run.withBlock fresh done l carry).deadKeys.Perm _ := withBlock_deadKeys hS (by
        rw [(run?_some.mp hR).2.2.1]
        exact (hc.kept l hD).symm.trans hA) (flatMap_blocks hR done ▸ hc.keys)
      have hm := ((hp.runOk hR).withBlock hK hL hP).metaOk
      simp only [packed, bind_ok, mapError_ok, RunMeta.encode_ok,
        pure_ok]
      exact ⟨_, run.losing fresh, ⟨hm, rfl⟩, rfl⟩

omit [ShardHash] in
theorem LiveKeys.sorted (h : LiveKeys run keys) : LiveKeys run (sortedKeys keys) where
  nodup := nodup_of_isChain_lt (sortedKeys_sorted keys)
  mem k hK := h.mem k (mem_sortedKeys.mp hK)
  live k hK := h.live k (mem_sortedKeys.mp hK)

theorem applyRunDeaths_eq (hp : CatalogOk p) (hR : p.run? r = some run)
    (hk : LiveKeys run keys) (hN : keys ≠ []) : ∃ cr : DeadKeys, cr.keys = sortedKeys keys ∧
      applyRunDeaths p r keys =
        if (run.losing (sortedKeys keys)).liveEvents = 0 then .ok (deleteRun p (run.losing (sortedKeys keys)))
        else carryDeaths (run.losing (sortedKeys keys)) (List.range maxDeathBlocks) p cr := by
  obtain ⟨hMeta, hD, -, -⟩ := run?_some.mp hR
  have ho := hp.runOk hR
  have hd : RunMeta.decode run.runMeta = .ok run.runMeta := RunMeta.encode_ok.mpr ⟨ho.metaOk, rfl⟩
  obtain ⟨de, hE, hl⟩ := mergeDeadBlocks_eq _ (deathBlocks_length_le p r)
  rw [flatMap_deathBlocks, flatMap_blocks hR] at hl
  change deadList de = sortedKeys run.deadKeys at hl
  have hf : (keys.filter fun k => !isDead de k) = keys := by
    refine List.filter_eq_self.mpr fun k hK => ?_
    have hY : ¬ isDead de k = true := by
      rw [isDead_iff, hl, mem_sortedKeys]
      exact hk.live k hK
    simp [hY]
  have hS : sortedKeys keys ≠ [] := fun hZ => by
    obtain ⟨k, hK⟩ := exists_mem_of_ne_nil _ hN
    have := mem_sortedKeys.mpr hK
    rw [hZ] at this
    cases this
  have hC : (de.map fun d => d.keys.length).getD 0 = run.deadKeys.length := by
    have hL := congrArg List.length hl
    rw [(sortedKeys_perm ho.deadNodup).length_eq] at hL
    cases de <;> simpa [deadList] using hL
  have hr := (ho.length_lt hk.sorted).2
  refine ⟨⟨sortedKeys keys, hS, sortedKeys_sorted keys⟩, rfl, ?_⟩
  have hn : (sortedKeys keys).isEmpty = false := by simpa using hS
  have hF : ¬ run.deadKeys.length + (sortedKeys keys).length > run.dictionary.length := by omega
  simp only [applyRunDeaths, hMeta, hD, packed, hd, hE, Except.mapError, bind, Except.bind, hf, hn,
    hC, Except.refuseIf, if_neg hF, DeadKeys.new_ok hS (sortedKeys_sorted keys), pure, Except.pure,
    false_eq_true, ↓reduceIte]
  rfl

theorem loses_all (hp : CatalogOk p) (hR : p.run? r = some run) (hk : LiveKeys run fresh)
    (hN : (run.losing fresh).liveEvents = 0) : Loses p r run fresh none (deleteRun p (run.losing fresh)) := by
  have hI : (run.losing fresh).runId = r := hp.runId_eq hR
  have hD := deleteRun_deleted p (run.losing fresh)
  have hn : Names p [run.losing fresh] := fun m hm => by
    obtain rfl := mem_singleton.mp hm
    exact ⟨run, hI ▸ hR, rfl⟩
  have hr := replaces_of_deleted hp hn hD
  simp only [map_cons, map_nil, hI] at hr
  refine ⟨hr, hp.replace hr (by simp), by simp, by simp, by simp, by simp, fun _ f pf ev hP => ?_, ?_⟩
  · -- every key of the run is dead or dying
    obtain ⟨hd, hL⟩ := (hp.runOk hR).length_lt hk
    have hB : (run.deadKeys ++ fresh).Subperm (run.dictionary.map Prod.fst) :=
      subperm_of_subset hd fun k hK =>
        (mem_append.mp hK).elim ((hp.runOk hR).dead_mem k) (hk.mem k)
    have h1 := hB.perm_of_length_le (by
      simp only [Run.losing] at hN
      rw [length_map, length_append]
      omega)
    have hM : ev.eventKey ∈ run.dictionary.map Prod.fst :=
      mem_map.mpr ⟨_, mem_dictionary_of_posts hP.1, rfl⟩
    exact (mem_append.mp (h1.mem_iff.mpr hM)).resolve_left hP.2
  · have hx : (deleteRun p (run.losing fresh)).nextId = p.nextId := rfl
    omega

theorem applyRunDeaths_ok (hp : CatalogOk p) (hI : LiveIds p) (hR : p.run? r = some run)
    (hK : LiveKeys run keys) (hn : keys ≠ []) (ho : applyRunDeaths p r keys = .ok p') :
    ∃ n, Loses p r run (sortedKeys keys) n p' := by
  obtain ⟨cr, hC, hE⟩ := applyRunDeaths_eq hp hR hK hn
  rw [hE] at ho
  split at ho
  · rename_i h1
    cases ho
    exact ⟨none, loses_all hp hR hK.sorted h1⟩
  rename_i hS
  simp only [Run.losing] at hS
  obtain ⟨n, hN⟩ := carryDeaths_ok hp hI hR hK.sorted (by omega) (Carrying.start hC) rfl ho
  exact ⟨some n, hN⟩

theorem applyRunDeaths_progress (hp : CatalogOk p) (hI : LiveIds p) (hr : Room p) (hS : p.nextId + 1 ≤ u64Max)
    (hR : p.run? r = some run) (hK : LiveKeys run keys) (hN : keys ≠ []) :
    ∃ p', applyRunDeaths p r keys = .ok p' := by
  obtain ⟨cr, hC, hE⟩ := applyRunDeaths_eq hp hR hK hN
  rw [hE]
  split
  · exact ⟨_, rfl⟩
  rename_i hs
  simp only [Run.losing] at hs
  exact carryDeaths_progress hp hI hr hS hR hK.sorted (by omega) (Carrying.start hC) rfl

end OneRun

end NmpStore.Postings
