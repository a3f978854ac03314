import NmpStore.Postings.Cohort

/-! # Replacing runs

Publication, compaction, rewriting and dropping all do the same to the catalog: some runs go and at most one takes their
place.
-/

namespace NmpStore.Postings

variable [ShardHash]

structure CatalogOk (p : Packed) : Prop where
  indexed : Indexed p
  runId_eq : ∀ {runId : Nat} {run : Run}, p.run? runId = some run → run.runMeta.runId = runId
  runOk : ∀ {runId : Nat} {run : Run}, p.run? runId = some run → RunOk run
  ordered : ∀ {runId runId' : Nat} {run run' : Run}, p.run? runId = some run → p.run? runId' = some run' →
    runId ≠ runId' → run.runMeta.Older run'.runMeta ∨ run'.runMeta.Older run.runMeta

variable {p p' q : Packed} {run : Run} {m : RunMeta}

section
omit [ShardHash]

theorem run?_some : p.run? r = some run ↔
    p.runMeta[r]? = some run.runMeta ∧ p.dictionary[r]? = some run.dictionary ∧
      (run.blocks = fun l => p.deaths[(r, l)]?) ∧
      run.segment = fun f shard => p.segments[(f, shard, r)]? := by
  unfold Packed.run?
  split
  · rename_i rn dc hMeta hD
    simp only [Option.some.injEq, hMeta, hD]
    constructor
    · rintro rfl
      exact ⟨rfl, rfl, rfl, rfl⟩
    · rintro ⟨rfl, rfl, hB, hS⟩
      cases run
      simp_all
  · rename_i hN
    simp only [reduceCtorEq, false_iff]
    rintro ⟨hMeta, hD, -⟩
    exact hN _ _ hMeta hD

theorem Indexed.exists_run (h : Indexed p) (hA : p.runMeta[r]? = some m) :
    ∃ run, p.run? r = some run ∧ run.runMeta = m := by
  have hS := h.dictionary r
  rw [hA, isSome_some, isSome_iff_exists] at hS
  obtain ⟨dictionary, hD⟩ := hS
  exact ⟨⟨m, dictionary, fun l => p.deaths[(r, l)]?, fun f shard => p.segments[(f, shard, r)]?⟩,
    run?_some.mpr ⟨hA, hD, rfl, rfl⟩, rfl⟩

end

theorem CatalogOk.metas (h : CatalogOk p) : MetasOk p.runMeta where
  runId_eq hA := by
    obtain ⟨run, hR, rfl⟩ := h.indexed.exists_run hA
    exact h.runId_eq hR
  metaOk hA := by
    obtain ⟨run, hR, rfl⟩ := h.indexed.exists_run hA
    exact (h.runOk hR).metaOk
  ordered hA hA' hN := by
    obtain ⟨run, hR, rfl⟩ := h.indexed.exists_run hA
    obtain ⟨run', hR', rfl⟩ := h.indexed.exists_run hA'
    exact h.ordered hR hR' hN

theorem CatalogOk.run_lt_next (h : CatalogOk p) (hR : p.run? r = some run) :
    0 < r ∧ r < p.nextId :=
  h.indexed.ids (run?_some.mp hR).1

theorem CatalogOk.run_eq_of_key (h : CatalogOk p)
    (hR : p.run? r = some run) (hR' : p.run? r' = some run') (k : EventKey)
    (hK : run.runMeta.minEventKey ≤ k ∧ k ≤ run.runMeta.maxEventKey)
    (hK' : run'.runMeta.minEventKey ≤ k ∧ k ≤ run'.runMeta.maxEventKey) : r = r' := by
  by_contra hN
  rcases h.ordered hR hR' hN with hO | hO
  · exact absurd (hK.2.trans_lt (hO.1.trans_le hK'.1)) (lt_irrefl _)
  · exact absurd (hK'.2.trans_lt (hO.1.trans_le hK.1)) (lt_irrefl _)

def runsAfter (p : Packed) (gone : List Nat) : Option Run → Nat → Option Run
  | some run, runId => if run.runMeta.runId = runId then some run else if runId ∈ gone then none else p.run? runId
  | none, runId => if runId ∈ gone then none else p.run? runId

structure Replaces (p : Packed) (gone : List Nat) (new : Option Run) (p' : Packed) : Prop where
  run_eq : ∀ runId, p'.run? runId = runsAfter p gone new runId
  indexed : Indexed p'
  next_le : p.nextId ≤ p'.nextId

def Keeps (p : Packed) (gone : List Nat) (new : Option Run) (runId : Nat) (run : Run) : Prop :=
  p.run? runId = some run ∧ runId ∉ gone ∧ ∀ added, new = some added → added.runMeta.runId ≠ runId

omit [ShardHash] in
theorem runsAfter_some : runsAfter p gone n r = some run ↔
      (n = some run ∧ run.runMeta.runId = r) ∨ Keeps p gone n r run := by
  cases n with
  | none =>
    simp only [runsAfter, Keeps]
    split <;> simp_all
  | some ad =>
    simp only [runsAfter, Keeps, Option.some.injEq, forall_eq']
    split
    · rename_i hId
      simp only [Option.some.injEq, hId, ne_eq, not_true_eq_false, and_false, or_false]
      exact ⟨fun h => ⟨h, h ▸ hId⟩, And.left⟩
    rename_i hId
    split
    · simp_all only [reduceCtorEq, not_true_eq_false, false_and, and_false, or_false, false_iff, not_and]
      rintro rfl
      exact hId
    · rename_i hK
      simp only [hK, hId, not_false_eq_true, ne_eq, and_true]
      exact ⟨.inr, fun h => h.elim (fun h => absurd h.2 (h.1 ▸ hId)) id⟩

theorem CatalogOk.replace (h : CatalogOk p)
    (hr : Replaces p gone n p') (hN : ∀ run, n = some run → RunOk run ∧
      ∀ r o, Keeps p gone n r o → run.runMeta.Older o.runMeta ∨ o.runMeta.Older run.runMeta) :
    CatalogOk p' where
  indexed := hr.indexed
  runId_eq hR := by
    rw [hr.run_eq, runsAfter_some] at hR
    exact hR.elim And.right fun hK => h.runId_eq hK.1
  runOk hR := by
    rw [hr.run_eq, runsAfter_some] at hR
    exact hR.elim (fun hn => (hN _ hn.1).1) fun hK => h.runOk hK.1
  ordered hR hR' he := by
    rw [hr.run_eq, runsAfter_some] at hR hR'
    rcases hR with ⟨hn, hI⟩ | hK <;> rcases hR' with ⟨hn', hI'⟩ | hK'
    · cases hn.symm.trans hn'
      exact absurd (hI.symm.trans hI') he
    · exact (hN _ hn).2 _ _ hK'
    · exact ((hN _ hn').2 _ _ hK).symm
    · exact h.ordered hK.1 hK'.1 he

def Packed.PostsLive (p : Packed) (family : Family) (pfx : Bytes) (event : RunEvent) : Prop :=
  ∃ runId run, p.run? runId = some run ∧ run.PostsLive family pfx event

theorem Replaces.postsLive_iff (h : Replaces p gone n p') : p'.PostsLive f pfx ev ↔
      (∃ run, n = some run ∧ run.PostsLive f pfx ev) ∨
        ∃ r run, Keeps p gone n r run ∧ run.PostsLive f pfx ev := by
  simp only [Packed.PostsLive, h.run_eq, runsAfter_some]
  constructor
  · rintro ⟨r, run, ⟨hn, -⟩ | hK, hP⟩
    · exact .inl ⟨run, hn, hP⟩
    · exact .inr ⟨r, run, hK, hP⟩
  · rintro (⟨run, hn, hP⟩ | ⟨r, run, hK, hP⟩)
    · exact ⟨run.runMeta.runId, run, .inl ⟨hn, rfl⟩, hP⟩
    · exact ⟨r, run, .inr hK, hP⟩

theorem Replaces.metas_perm (hp : CatalogOk p)
    (h : Replaces p gone n p') (hp' : CatalogOk p') : p'.metas.Perm ((n.map Run.runMeta).toList ++
      p.metas.filter fun m => m.runId ∉ gone ∧ (n.map fun run => run.runMeta.runId) ≠ some m.runId) := by
  refine (List.perm_ext_iff_of_nodup (metas_nodup hp'.metas) ?_).mpr fun m => ?_
  · refine nodup_append.mpr ⟨by cases n <;> simp, (metas_nodup hp.metas).filter _, ?_⟩
    intro a ha b hb hab
    cases n with
    | none => simp at ha
    | some run =>
      obtain rfl : a = run.runMeta := by simpa using ha
      simp [← hab] at hb
  rw [mem_metas hp'.metas, mem_append, mem_filter, mem_metas hp.metas]
  constructor
  · intro hA
    obtain ⟨run, hR, rfl⟩ := hp'.indexed.exists_run hA
    rw [h.run_eq, runsAfter_some] at hR
    rcases hR with ⟨rfl, -⟩ | ⟨hO, hK, hX⟩
    · simp
    refine .inr ⟨(run?_some.mp hO).1, ?_⟩
    cases n with
    | none => simpa using hK
    | some ad => simpa [hK] using hX
  · rintro (hN | ⟨hA, hK⟩)
    · cases n with
      | none => simp at hN
      | some run =>
        obtain rfl : m = run.runMeta := by simpa using hN
        exact (run?_some.mp ((h.run_eq _).trans (runsAfter_some.mpr (.inl ⟨rfl, rfl⟩)))).1
    · obtain ⟨run, hR, rfl⟩ := hp.indexed.exists_run hA
      refine (run?_some.mp ((h.run_eq _).trans (runsAfter_some.mpr (.inr ⟨hR, ?_⟩)))).1
      cases n with
      | none => simpa using hK
      | some ad => simpa using hK

section Delete

omit [ShardHash]

structure Deleted (p : Packed) (cohort : List RunMeta) (p' : Packed) : Prop where
  runMeta : ∀ runId : Nat, p'.runMeta[runId]? = if runId ∈ cohort.map RunMeta.runId then none else p.runMeta[runId]?
  dictionary : ∀ runId : Nat,
    p'.dictionary[runId]? = if runId ∈ cohort.map RunMeta.runId then none else p.dictionary[runId]?
  byMin : ∀ key : Nat, p'.byMin[key]? = if key ∈ cohort.map RunMeta.minEventKey then none else p.byMin[key]?
  deaths : ∀ runId level : Nat, runId ∉ cohort.map RunMeta.runId → p'.deaths[(runId, level)]? = p.deaths[(runId, level)]?
  deaths_sub : ∀ (runId level : Nat) (dead : DeadKeys), p'.deaths[(runId, level)]? = some dead →
    p.deaths[(runId, level)]? = some dead
  segments : ∀ family shard runId : Nat, runId ∉ cohort.map RunMeta.runId →
    p'.segments[(family, shard, runId)]? = p.segments[(family, shard, runId)]?
  segments_sub : ∀ (family shard runId : Nat) (segment : Segment), p'.segments[(family, shard, runId)]? = some segment →
    p.segments[(family, shard, runId)]? = some segment
  nextRunId : p'.nextRunId = p.nextRunId

theorem deleteRun_segments (p : Packed) (m : RunMeta) :
    (deleteRun p m).segments = Table.eraseAll p.segments (segmentKeys m.runId) := by
  simp only [deleteRun]

theorem deleteRun_deleted (p : Packed) (m : RunMeta) : Deleted p [m] (deleteRun p m) where
  runMeta r := by
    rw [deleteRun, get_erase]
    simp only [map_cons, map_nil, mem_singleton, eq_comm]
  dictionary r := by
    rw [deleteRun, get_erase]
    simp only [map_cons, map_nil, mem_singleton, eq_comm]
  byMin k := by
    rw [deleteRun, get_erase]
    simp only [map_cons, map_nil, mem_singleton, eq_comm]
  deaths r l hY := by
    refine (Table.get_eraseAll p.deaths (deathKeys m.runId) _).2 fun hM => hY ?_
    obtain ⟨_, -, hE⟩ := mem_map.mp hM
    simp [(Prod.mk.inj hE).1]
  deaths_sub r l dead hA := Table.get_of_get_eraseAll hA
  segments f sh r hY := by
    rw [deleteRun_segments]
    refine (Table.get_eraseAll p.segments (segmentKeys m.runId) _).2 fun hM => hY ?_
    simp only [segmentKeys, segmentKey, mem_flatMap, mem_map, Prod.mk.injEq] at hM
    obtain ⟨_, -, _, -, -, -, hE⟩ := hM
    simp [hE]
  segments_sub f sh r segment hA := by
    rw [deleteRun_segments] at hA
    exact Table.get_of_get_eraseAll hA
  nextRunId := rfl

variable {p : Packed}

theorem Deleted.trans (h : Deleted p cohort q) (h' : Deleted q cohort' r) :
    Deleted p (cohort ++ cohort') r where
  runMeta rid := by
    rw [h'.runMeta, h.runMeta, map_append]
    by_cases h₁ : rid ∈ cohort.map RunMeta.runId <;> by_cases h₂ : rid ∈ cohort'.map RunMeta.runId <;> simp [h₁, h₂]
  dictionary rid := by
    rw [h'.dictionary, h.dictionary, map_append]
    by_cases h₁ : rid ∈ cohort.map RunMeta.runId <;> by_cases h₂ : rid ∈ cohort'.map RunMeta.runId <;> simp [h₁, h₂]
  byMin k := by
    rw [h'.byMin, h.byMin, map_append]
    by_cases h₁ : k ∈ cohort.map RunMeta.minEventKey <;>
      by_cases h₂ : k ∈ cohort'.map RunMeta.minEventKey <;> simp [h₁, h₂]
  deaths rid l hY := by
    rw [map_append, mem_append, not_or] at hY
    rw [h'.deaths _ _ hY.2, h.deaths _ _ hY.1]
  deaths_sub rid l dead hA := h.deaths_sub _ _ _ (h'.deaths_sub _ _ _ hA)
  segments f sh rid hY := by
    rw [map_append, mem_append, not_or] at hY
    rw [h'.segments _ _ _ hY.2, h.segments _ _ _ hY.1]
  segments_sub f sh rid segment hA := h.segments_sub _ _ _ _ (h'.segments_sub _ _ _ _ hA)
  nextRunId := h'.nextRunId.trans h.nextRunId

theorem foldl_deleteRun_deleted (p : Packed) (ch : List RunMeta) : Deleted p ch (ch.foldl deleteRun p) := by
  induction ch generalizing p with
  | nil => exact ⟨by simp, by simp, by simp, fun _ _ _ => rfl, fun _ _ _ h => h, fun _ _ _ _ => rfl,
      fun _ _ _ _ h => h, rfl⟩
  | cons m ch ih => exact (deleteRun_deleted p m).trans (ih (deleteRun p m))

theorem run?_congr (hMeta : p'.runMeta[r]? = p.runMeta[r]?)
    (hd : p'.dictionary[r]? = p.dictionary[r]?)
    (hD : ∀ l : Nat, p'.deaths[(r, l)]? = p.deaths[(r, l)]?)
    (hS : ∀ f shard : Nat, p'.segments[(f, shard, r)]? = p.segments[(f, shard, r)]?) :
    p'.run? r = p.run? r := by
  simp only [Packed.run?, hMeta, hd, hD, hS]

end Delete

def Names (p : Packed) (cohort : List RunMeta) : Prop :=
  ∀ m ∈ cohort, ∃ run, p.run? m.runId = some run ∧ run.runMeta.minEventKey = m.minEventKey

theorem byMin_of_deleted (h : CatalogOk p) (hN : Names p cohort)
    (hMeta : q.runMeta = p.runMeta) (hn : q.byMin = p.byMin) (hd : Deleted q cohort d) (k r : Nat) :
    d.byMin[k]? = some r ↔ ∃ m, d.runMeta[r]? = some m ∧ m.minEventKey = k := by
  rw [hd.byMin, hd.runMeta, hMeta, hn]
  constructor
  · intro hAt
    split at hAt
    · cases hAt
    rename_i hY
    obtain ⟨m, hm, rfl⟩ := (h.indexed.byMin k r).mp hAt
    refine ⟨m, ?_, rfl⟩
    rw [if_neg, hm]
    intro hG
    obtain ⟨c, hc, rfl⟩ := mem_map.mp hG
    obtain ⟨run, hR, hr⟩ := hN c hc
    have hS := (run?_some.mp hR).1.symm.trans hm
    exact hY (mem_map.mpr ⟨c, hc, by rw [← hr, Option.some.inj hS]⟩)
  · rintro ⟨m, hAt, rfl⟩
    split at hAt
    · cases hAt
    rename_i hK
    rw [if_neg, (h.indexed.byMin _ _).mpr ⟨m, hAt, rfl⟩]
    intro hM
    obtain ⟨c, hc, hE⟩ := mem_map.mp hM
    obtain ⟨run, hR, hr⟩ := hN c hc
    obtain ⟨kp, hk, rfl⟩ := h.indexed.exists_run hAt
    have hS := h.run_eq_of_key hk hR kp.runMeta.minEventKey
      ⟨le_rfl, (h.runOk hk).metaOk.min_le_max⟩
      ⟨by rw [hr, hE], by rw [← hE, ← hr]; exact (h.runOk hR).metaOk.min_le_max⟩
    exact hK (mem_map.mpr ⟨c, hc, hS.symm⟩)

theorem replaces_of_deleted (h : CatalogOk p) (hn : Names p cohort)
    (hd : Deleted p cohort p') : Replaces p (cohort.map RunMeta.runId) none p' := by
  have hN : p'.nextId = p.nextId := by rw [Packed.nextId, hd.nextRunId, Packed.nextId]
  refine ⟨fun r => ?_, ⟨fun r => ?_, byMin_of_deleted h hn rfl rfl hd, ?_, fun hA => ?_, fun hA => ?_,
    fun hA => ?_⟩, hN.ge⟩
  · simp only [runsAfter]
    split
    · rename_i hG
      simp [Packed.run?, hd.runMeta, hG]
    rename_i hK
    exact run?_congr (by rw [hd.runMeta, if_neg hK]) (by rw [hd.dictionary, if_neg hK])
      (fun l => hd.deaths _ _ hK) (fun f sh => hd.segments _ _ _ hK)
  · rw [hd.dictionary, hd.runMeta]
    split
    · rfl
    · exact h.indexed.dictionary r
  · rw [hN]
    exact h.indexed.next_pos
  · rw [hd.runMeta] at hA
    split at hA
    · cases hA
    · rw [hN]
      exact h.indexed.ids hA
  · rw [hN]
    exact h.indexed.segments (hd.segments_sub _ _ _ _ hA)
  · rw [hN]
    exact h.indexed.deaths (hd.deaths_sub _ _ _ hA)

structure Prepared (p : Packed) (gone : List Nat) (dictionary : Dictionary) (q : Packed) : Prop where
  runMeta : q.runMeta = p.runMeta
  byMin : q.byMin = p.byMin
  dictionary : q.dictionary = p.dictionary.insert p.nextId dictionary
  nextRunId : q.nextRunId = some (p.nextId + 1)
  segments : ∀ family shard runId : Nat, runId ≠ p.nextId →
    q.segments[(family, shard, runId)]? = p.segments[(family, shard, runId)]?
  deaths : ∀ runId level : Nat, runId ∉ gone → q.deaths[(runId, level)]? = p.deaths[(runId, level)]?
  deaths_sub : ∀ (runId level : Nat) (dead : DeadKeys), q.deaths[(runId, level)]? = some dead →
    p.deaths[(runId, level)]? = some dead

omit [ShardHash] in
theorem insertRunCatalog_ok : insertRunCatalog p m = .ok p' ↔ m.Ok ∧ p' = { p with
    runMeta := p.runMeta.insert m.runId m
    byMin := p.byMin.insert m.minEventKey m.runId } := by
  simp only [insertRunCatalog, packed, bind_ok, mapError_ok, pure_ok,
    RunMeta.encode_ok]
  constructor
  · rintro ⟨_, ⟨hM, rfl⟩, rfl⟩
    exact ⟨hM, rfl⟩
  · rintro ⟨hM, rfl⟩
    exact ⟨m, ⟨hM, rfl⟩, rfl⟩

def Packed.written (q : Packed) (m : RunMeta) (dictionary : Dictionary) : Run :=
  ⟨m, dictionary, fun _ => none, fun family shard => q.segments[(family, shard, m.runId)]?⟩

theorem replaces_of_prepared (h : CatalogOk p) (hm : Names p cohort)
    (hq : Prepared p (cohort.map RunMeta.runId) dict q)
    (hId : m.runId = p.nextId) (hr : ∀ r o, p.run? r = some o →
      r ∉ cohort.map RunMeta.runId → m.Older o.runMeta ∨ o.runMeta.Older m)
    (h1 : insertRunCatalog (cohort.foldl deleteRun q) m = .ok p') :
    Replaces p (cohort.map RunMeta.runId) (some (q.written m dict)) p' := by
  have hd := foldl_deleteRun_deleted q cohort
  generalize cohort.foldl deleteRun q = d at hd h1
  obtain ⟨ht, rfl⟩ := insertRunCatalog_ok.mp h1
  have hn : p.nextId ∉ cohort.map RunMeta.runId := fun hM => by
    obtain ⟨c, hc, hE⟩ := mem_map.mp hM
    obtain ⟨run, hR, -⟩ := hm c hc
    have := h.run_lt_next hR
    omega
  have hN : Packed.nextId { d with
      runMeta := d.runMeta.insert m.runId m
      byMin := d.byMin.insert m.minEventKey m.runId } = p.nextId + 1 := by
    rw [Packed.nextId, hd.nextRunId, hq.nextRunId, getD_some]
  have hO : ∀ {r : Nat} {o : RunMeta}, d.runMeta[r]? = some o →
      r ∉ cohort.map RunMeta.runId ∧ p.runMeta[r]? = some o := by
    intro r o hAt
    rw [hd.runMeta, hq.runMeta] at hAt
    split at hAt
    · cases hAt
    · rename_i hk
      exact ⟨hk, hAt⟩
  refine ⟨fun r => ?_, ⟨fun r => ?_, fun k r => ?_, ?_, fun {r o} hAt => ?_, fun hAt => ?_,
    fun hAt => ?_⟩, by rw [hN]; omega⟩
  · have hA : runsAfter p (cohort.map RunMeta.runId) (some (q.written m dict)) r =
        if m.runId = r then some (q.written m dict)
        else if r ∈ cohort.map RunMeta.runId then none else p.run? r := rfl
    rw [hA]
    by_cases hS : m.runId = r
    · subst hS
      rw [if_pos rfl]
      have hD : ∀ l : Nat, d.deaths[(m.runId, l)]? = none := fun l =>
        eq_none_iff_forall_ne_some.mpr fun de hAt => by
          have := (h.indexed.deaths (hq.deaths_sub _ _ _ (hd.deaths_sub _ _ _ hAt))).1
          omega
      refine run?_some.mpr ⟨by simp [Packed.written], ?_, ?_, ?_⟩
      · rw [hd.dictionary, if_neg (hId ▸ hn), hq.dictionary, hId]
        simp [Packed.written]
      · simp [Packed.written, hD]
      · funext f sh
        exact (hd.segments f sh _ (hId ▸ hn)).symm
    · rw [if_neg hS]
      by_cases hk : r ∈ cohort.map RunMeta.runId
      · rw [if_pos hk]
        simp [Packed.run?, hS, hd.runMeta, hk]
      rw [if_neg hk]
      refine run?_congr ?_ ?_ (fun l => ?_) fun f sh => ?_
      · rw [get_insert, if_neg hS, hd.runMeta, if_neg hk, hq.runMeta]
      · rw [hd.dictionary, if_neg hk, hq.dictionary, get_insert, if_neg (hId ▸ hS)]
      · rw [hd.deaths _ _ hk, hq.deaths _ _ hk]
      · rw [hd.segments _ _ _ hk, hq.segments _ _ _ (hId ▸ Ne.symm hS)]
  · rw [get_insert, hd.dictionary, hd.runMeta, hq.dictionary, hq.runMeta, hId, get_insert]
    by_cases hS : p.nextId = r
    · subst hS
      simp [hn]
    split
    · rfl
    · exact h.indexed.dictionary r
  · simp only [get_insert]
    have he := byMin_of_deleted h hm hq.runMeta hq.byMin hd k r
    -- a run that is kept starts at another key than the new one
    have ha : ∀ {id : Nat} {o : RunMeta}, d.runMeta[id]? = some o → o.minEventKey ≠ m.minEventKey := by
      intro id o hAt hE
      obtain ⟨hk, hAt⟩ := hO hAt
      obtain ⟨run, hR, rfl⟩ := h.indexed.exists_run hAt
      have h3 := (h.runOk hR).metaOk.min_le_max
      have hw := ht.min_le_max
      rcases hr id run hR hk with ho | ho
      · have := ho.1
        omega
      · have := ho.1
        omega
    by_cases hK : m.minEventKey = k
    · subst hK
      simp only [↓reduceIte, Option.some.injEq]
      constructor
      · rintro rfl
        exact ⟨m, by simp, rfl⟩
      · rintro ⟨o, hAt, hE⟩
        by_contra h2
        rw [if_neg h2] at hAt
        exact ha hAt hE
    simp only [hK, ↓reduceIte, he]
    constructor
    · rintro ⟨o, hAt, rfl⟩
      refine ⟨o, ?_, rfl⟩
      rw [if_neg, hAt]
      rintro rfl
      have := (h.indexed.ids (hO hAt).2).2
      omega
    · rintro ⟨o, hAt, rfl⟩
      split at hAt
      · cases hAt
        exact absurd rfl hK
      · exact ⟨o, hAt, rfl⟩
  · rw [hN]
    omega
  · rw [hN]
    rcases insert_some.mp hAt with _ | ⟨-, hAt⟩
    · have := h.indexed.next_pos
      omega
    · have := h.indexed.ids (hO hAt).2
      omega
  · rw [hN]
    rename_i f sh r g
    have hB := hd.segments_sub _ _ _ _ hAt
    by_cases hS : r = p.nextId
    · omega
    rw [hq.segments _ _ _ hS] at hB
    have := h.indexed.segments hB
    omega
  · rw [hN]
    have := h.indexed.deaths (hq.deaths_sub _ _ _ (hd.deaths_sub _ _ _ hAt))
    omega

end NmpStore.Postings
