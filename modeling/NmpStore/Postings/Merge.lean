import NmpStore.Postings.Replace

/-! # The run a merge publishes

Runs of the catalog go into a merge with a set of dead keys each.
-/

namespace NmpStore.Postings

variable [ShardHash]

def LiveIds (p : Packed) : Prop :=
  ∀ event event', p.PostsLive .global [] event → p.PostsLive .global [] event' → event.id = event'.id →
    event.eventKey = event'.eventKey

/-- What is live of one segment fits into the segment of one run. -/
def Room (p : Packed) : Prop :=
  ∀ (segment : Nat × Nat) (ms : List Membership), ms.Nodup → (∀ m ∈ ms, segmentOf m = segment ∧
    m.shard = shardFor m.family m.pfx ∧ p.PostsLive m.family m.pfx m.event) → runBytes ms ≤ u32Max

structure Draws (p : Packed) (input : CohortRun) (run : Run) : Prop where
  stored : p.run? input.runMeta.runId = some run
  min_eq : input.runMeta.minEventKey = run.runMeta.minEventKey
  max_eq : input.runMeta.maxEventKey = run.runMeta.maxEventKey
  dictionary : input.dictionary = run.dictionary
  dead : ∀ key ∈ run.deadKeys, isDead input.dead key = true

structure MergeInputs (p : Packed) (inputs : List CohortRun) : Prop where
  draws : ∀ input ∈ inputs, ∃ run, Draws p input run
  ordered : inputs.Pairwise (fun a b => a.runMeta.maxEventKey < b.runMeta.minEventKey)

structure DeathsOutside (p : Packed) (gone : List Nat) (deaths : Table (Nat × Nat) DeadKeys) : Prop where
  same : ∀ runId level : Nat, runId ∉ gone → deaths[(runId, level)]? = p.deaths[(runId, level)]?
  sub : ∀ (runId level : Nat) (dead : DeadKeys), deaths[(runId, level)]? = some dead →
    p.deaths[(runId, level)]? = some dead

def mergedIds (inputs : List CohortRun) : List Nat := inputs.map fun input => input.runMeta.runId

variable {p q p' : Packed} {run : Run} {α : Type} {deaths : Table (Nat × Nat) DeadKeys}

omit [ShardHash] in
theorem MergeInputs.names (h : MergeInputs p ins) : Names p (ins.map CohortRun.runMeta) := by
  intro m hm
  obtain ⟨i, hI, rfl⟩ := mem_map.mp hm
  obtain ⟨run, hR⟩ := h.draws i hI
  exact ⟨run, hR.stored, hR.min_eq.symm⟩

theorem MergeInputs.cohort (hp : CatalogOk p) (h : MergeInputs p ins)
    (deaths : Table (Nat × Nat) DeadKeys) : Cohort { p with deaths := deaths } ins := by
  have hW : ∀ i ∈ ins, ∀ e ∈ i.dictionary,
      i.runMeta.minEventKey ≤ e.1 ∧ e.1 ≤ i.runMeta.maxEventKey := by
    intro i hI e hE
    obtain ⟨run, hR⟩ := h.draws i hI
    rw [hR.min_eq, hR.max_eq]
    exact (hp.runOk hR.stored).within e (hR.dictionary ▸ hE)
  refine ⟨fun i hI => ?_, h.ordered.imp_of_mem fun {a b} ha hb hL e hE e' hE' => ?_⟩
  · obtain ⟨run, hR⟩ := h.draws i hI
    obtain ⟨-, hD, -, hS⟩ := run?_some.mp hR.stored
    have ho := hp.runOk hR.stored
    rw [← hR.dictionary] at hD
    refine ⟨hD, hR.dictionary ▸ ho.keysSorted, hR.dictionary ▸ ho.idsNodup, ?_⟩
    intro f sh g hA
    rw [hR.dictionary]
    exact ho.segmentOk f sh g (by rw [hS]; exact hA)
  · exact ((hW a ha e hE).2.trans_lt hL).trans_le (hW b hb e' hE').1

theorem MergeInputs.old (hp : CatalogOk p) {is : List CohortRun} (h : MergeInputs p is) :
    ∀ i ∈ is, i.runMeta.runId < p.nextId := by
  intro i hI
  obtain ⟨run, hR⟩ := h.draws i hI
  exact (hp.run_lt_next hR.stored).2

theorem Draws.postsLive_iff (hp : CatalogOk p) (h : Draws p i run)
    (deaths : Table (Nat × Nat) DeadKeys) :
    i.PostsLive { p with deaths := deaths } f sh pfx ev ↔
      sh = shardFor f pfx ∧ run.Posts f pfx ev ∧ isDead i.dead ev.eventKey = false := by
  obtain ⟨-, -, -, hS⟩ := run?_some.mp h.stored
  constructor
  · rintro ⟨g, hAt, hP, hL⟩
    have ho := (hp.runOk h.stored).segmentOk f sh g (by rw [hS]; exact hAt)
    obtain ⟨record, hR, rfl, hE⟩ := hP
    have hs := (ho.record record hR).inShard
    refine ⟨hs.symm, ⟨g, ?_, record, hR, rfl, h.dictionary ▸ hE⟩, hL⟩
    rw [hS, hs]
    exact hAt
  · rintro ⟨rfl, ⟨g, hAt, hP⟩, hL⟩
    refine ⟨g, ?_, h.dictionary ▸ hP, hL⟩
    rw [hS] at hAt
    exact hAt

theorem Draws.postsLive (h : Draws p i run) (hP : run.Posts f pfx ev)
    (hL : isDead i.dead ev.eventKey = false) : p.PostsLive f pfx ev := by
  refine ⟨_, run, h.stored, hP, fun hD => ?_⟩
  rw [h.dead _ hD] at hL
  cases hL

theorem MergeInputs.posted (hp : CatalogOk p) (h : MergeInputs p ins)
    (hE : e ∈ cohortEntries ins) : ∃ i ∈ ins, ∃ run, Draws p i run ∧
      e ∈ run.dictionary ∧ isDead i.dead e.1 = false ∧
      ∃ cr, run.Posts .global [] ⟨cr, e.2, e.1⟩ := by
  obtain ⟨i, hI, hM⟩ := mem_flatMap.mp hE
  obtain ⟨hM, hL⟩ := mem_filter.mp hM
  obtain ⟨run, hR⟩ := h.draws i hI
  have hM' := hR.dictionary ▸ hM
  exact ⟨i, hI, run, hR, hM', by simpa using hL, (hp.runOk hR.stored).posted e hM'⟩

theorem MergeInputs.postsLive_of_entry (hp : CatalogOk p) (h : MergeInputs p ins) (hE : e ∈ cohortEntries ins) :
    ∃ createdAt, p.PostsLive .global [] ⟨createdAt, e.2, e.1⟩ := by
  obtain ⟨i, -, run, hR, -, hL, createdAt, hP⟩ := h.posted hp hE
  exact ⟨createdAt, hR.postsLive hP hL⟩

theorem MergeInputs.idsNodup (hp : CatalogOk p) (hI : LiveIds p)
    (h : MergeInputs p ins) : ((cohortEntries ins).map Prod.snd).Nodup := by
  refine pairwise_map.mpr ((h.cohort hp p.deaths).entries_sorted.imp_of_mem fun {a b} ha hb hL hE => ?_)
  obtain ⟨t, hP⟩ := h.postsLive_of_entry hp ha
  obtain ⟨t', hP'⟩ := h.postsLive_of_entry hp hb
  exact absurd (hI _ _ hP hP' hE) (ne_of_lt hL)

section
omit [ShardHash]

variable {rs : List (EventKey × α)}

theorem head_le_of_sorted (h : rs.Pairwise (fun a b => a.1 < b.1))
    (hF : rs.head?.map Prod.fst = some low) : ∀ e ∈ rs, low ≤ e.1 := by
  obtain ⟨first, hH, rfl⟩ := map_eq_some_iff.mp hF
  obtain ⟨rt, rfl⟩ := List.head?_eq_some_iff.mp hH
  intro e hE
  rcases mem_cons.mp hE with rfl | hR
  · exact le_rfl
  · exact ((pairwise_cons.mp h).1 e hR).le

theorem le_last_of_sorted (h : rs.Pairwise (fun a b => a.1 < b.1))
    (hL : rs.getLast?.map Prod.fst = some high) : ∀ e ∈ rs, e.1 ≤ high := by
  obtain ⟨last, he, rfl⟩ := map_eq_some_iff.mp hL
  obtain ⟨fr, rfl⟩ := List.getLast?_eq_some_iff.mp he
  intro e hE
  rcases mem_append.mp hE with hF | hL
  · exact ((pairwise_append.mp h).2.2 e hF last (by simp)).le
  · rw [mem_singleton.mp hL]

end

def CompactionOutput.toMeta (output : CompactionOutput) (level : Nat) : RunMeta :=
  ⟨output.runId, level, output.minEventKey, output.maxEventKey, output.liveEvents⟩

theorem Merged.posts_written (hp : CatalogOk p) (h : MergeInputs p ins)
    (hM : Merged { p with deaths := deaths } ins o q) (l : Nat) :
    (q.written (o.toMeta l) (cohortEntries ins)).Posts f pfx ev ↔
      ∃ i ∈ ins, ∃ run, Draws p i run ∧ run.Posts f pfx ev ∧
        isDead i.dead ev.eventKey = false := by
  have hI : (o.toMeta l).runId = p.nextId := hM.runId_eq
  have hP := hM.posts_iff f (shardFor f pfx) pfx ev (shardFor_le f pfx)
  simp only [Run.Posts, Packed.written, hI]
  refine hP.trans ⟨?_, ?_⟩
  · rintro ⟨i, hi, hL⟩
    obtain ⟨run, hR⟩ := h.draws i hi
    obtain ⟨-, hP, hL⟩ := (hR.postsLive_iff hp deaths).mp hL
    exact ⟨i, hi, run, hR, hP, hL⟩
  · rintro ⟨i, hi, run, hR, hP, hL⟩
    exact ⟨i, hi, (hR.postsLive_iff hp deaths).mpr ⟨rfl, hP, hL⟩⟩

omit [ShardHash] in
theorem written_deadKeys (q : Packed) (m : RunMeta) (dc : Dictionary) : (q.written m dc).deadKeys = [] := by
  simp [Run.deadKeys, Packed.written, deadList]

theorem Merged.runOk (hp : CatalogOk p) (hI : LiveIds p)
    (h : MergeInputs p ins)
    (hm : Merged { p with deaths := deaths } ins o q) (l : Nat) :
    RunOk (q.written (o.toMeta l) (cohortEntries ins)) := by
  have hS := (h.cohort hp deaths).entries_sorted
  have hN : cohortEntries ins ≠ [] := fun hZ => by
    have := hm.first
    simp [hZ] at this
  have hF := head_le_of_sorted hS hm.first
  have hl := le_last_of_sorted hS hm.last
  have hD := written_deadKeys q (o.toMeta l) (cohortEntries ins)
  refine ⟨hS, h.idsNodup hp hI, ?_, fun e hE => ⟨hF e hE, hl e hE⟩, ?_, ?_, ?_, ?_,
    fun f sh g hA => ?_, fun e hE => ?_⟩
  · obtain ⟨first, hH, he⟩ := map_eq_some_iff.mp hm.first
    obtain ⟨i, hn, run, hR, hM, -⟩ := h.posted hp (List.mem_of_head? hH)
    have ho := hp.runOk hR.stored
    have hL := ho.min_pos.trans_le (ho.within first hM).1
    rw [he] at hL
    exact hL
  · simp [hD]
  · simp [hD]
  · rw [hD]
    exact hm.liveEvents_eq
  · exact (List.length_pos_iff.mpr hN).trans_eq hm.liveEvents_eq.symm
  · have hi : (o.toMeta l).runId = p.nextId := hm.runId_eq
    simp only [Packed.written, hi] at hA
    exact hm.segmentOk f sh g hA
  · obtain ⟨i, hn, run, hR, -, hV, createdAt, hP⟩ := h.posted hp hE
    exact ⟨createdAt, (hm.posts_written hp h l).mpr ⟨i, hn, run, hR, hP, hV⟩⟩

theorem Merged.range (hp : CatalogOk p) (h : MergeInputs p ins)
    (hm : Merged { p with deaths := deaths } ins o q) :
    (∃ i ∈ ins, i.runMeta.minEventKey ≤ o.minEventKey) ∧
      ∃ i ∈ ins, o.maxEventKey ≤ i.runMeta.maxEventKey := by
  constructor
  · obtain ⟨first, hH, hE⟩ := map_eq_some_iff.mp hm.first
    obtain ⟨i, hI, run, hR, hM, -⟩ := h.posted hp (List.mem_of_head? hH)
    refine ⟨i, hI, ?_⟩
    rw [hR.min_eq, ← hE]
    exact ((hp.runOk hR.stored).within first hM).1
  · obtain ⟨last, he, hE⟩ := map_eq_some_iff.mp hm.last
    obtain ⟨i, hI, run, hR, hM, -⟩ := h.posted hp (List.mem_of_getLast? he)
    refine ⟨i, hI, ?_⟩
    rw [hR.max_eq, ← hE]
    exact ((hp.runOk hR.stored).within last hM).2

theorem Merged.prepared (hU : DeathsOutside p gone deaths)
    (hM : Merged { p with deaths := deaths } ins o q) : Prepared p gone (cohortEntries ins) q where
  runMeta := hM.runMeta
  byMin := hM.byMin
  dictionary := hM.dictionary
  nextRunId := hM.nextRunId
  segments := hM.segments
  deaths r l hY := by
    rw [hM.deaths]
    exact hU.same r l hY
  deaths_sub r l dead hA := by
    rw [hM.deaths] at hA
    exact hU.sub r l dead hA

theorem Merged.replaces (hp : CatalogOk p) (hi : LiveIds p)
    (h : MergeInputs p ins) (hU : DeathsOutside p (mergedIds ins) deaths)
    (hM : Merged { p with deaths := deaths } ins o q) (l : Nat)
    (ho : ∀ r ol, p.run? r = some ol → r ∉ mergedIds ins →
      (o.toMeta l).Older ol.runMeta ∨ ol.runMeta.Older (o.toMeta l))
    (hk : insertRunCatalog ((ins.map CohortRun.runMeta).foldl deleteRun q) (o.toMeta l) = .ok p') :
    Replaces p (mergedIds ins) (some (q.written (o.toMeta l) (cohortEntries ins))) p' ∧ CatalogOk p' := by
  have hI : (ins.map CohortRun.runMeta).map RunMeta.runId = mergedIds ins := by
    rw [map_map]
    rfl
  have hr := replaces_of_prepared hp h.names (hI ▸ hM.prepared hU) hM.runId_eq
    (by rw [hI]; exact ho) hk
  rw [hI] at hr
  refine ⟨hr, hp.replace hr fun run hR => ?_⟩
  cases hR
  exact ⟨hM.runOk hp hi h l, fun r ol hK => ho r ol hK.1 hK.2.1⟩

theorem MergeInputs.length_entries_le (hp : CatalogOk p) (hR : Room p)
    (h : MergeInputs p ins) : (cohortEntries ins).length ≤ u32Max := by
  choose! createdAt hP using fun (e : EventKey × Nat) (hE : e ∈ cohortEntries ins) =>
    h.postsLive_of_entry hp hE
  let ms := (cohortEntries ins).map fun e =>
    (⟨.global, shardFor .global [], [], ⟨createdAt e, e.2, e.1⟩⟩ : Membership)
  have hF := hR (Family.global.toU8, shardFor .global []) ms (by
    refine pairwise_map.mpr ((h.cohort hp p.deaths).entries_sorted.imp fun hl he => ?_)
    exact absurd (congrArg (fun m : Membership => m.event.eventKey) he) (ne_of_lt hl)) (by
    intro m hm
    obtain ⟨e, hE, rfl⟩ := mem_map.mp hm
    exact ⟨rfl, rfl, hP e hE⟩)
  have hL := length_le_sum_membershipBytes ms
  have hM : ms.length = (cohortEntries ins).length := length_map ..
  unfold runBytes at hF
  omega

theorem MergeInputs.progress (hp : CatalogOk p) (hr : Room p) (hS : p.nextId + 1 ≤ u64Max)
    (h : MergeInputs p ins) (deaths : Table (Nat × Nat) DeadKeys)
    (hI : Indexed { p with deaths := deaths }) :
    ∃ re, streamCompactionCohort { p with deaths := deaths } (ins.map CohortRun.entry) = .ok re := by
  refine streamCompactionCohort_progress (p := { p with deaths := deaths }) hp.metas hI (h.cohort hp deaths) (h.old hp) hS
    (h.length_entries_le hp hr) (fun segment ms hN hL => hr segment ms hN fun m hm => ?_) fun e hE => ?_
  · obtain ⟨hSegment, input, hi, hP⟩ := hL m hm
    obtain ⟨run, hR⟩ := h.draws input hi
    obtain ⟨hs, hP, hA⟩ := (hR.postsLive_iff hp deaths).mp hP
    exact ⟨hSegment, hs, hR.postsLive hP hA⟩
  · obtain ⟨input, hi, run, hR, -, hL, createdAt, hP⟩ := h.posted hp hE
    exact ⟨_, shardFor .global [], shardFor_le _ _, input, hi,
      (hR.postsLive_iff hp deaths).mpr ⟨rfl, hP, hL⟩⟩

section
omit [ShardHash]

theorem DeathsOutside.indexed (hi : Indexed p)
    (h : DeathsOutside p gone deaths) : Indexed { p with deaths := deaths } where
  dictionary := hi.dictionary
  byMin := hi.byMin
  next_pos := hi.next_pos
  ids := hi.ids
  segments := hi.segments
  deaths hA := hi.deaths (h.sub _ _ _ hA)

def runDeaths (p : Packed) (runId : Nat) : Option DeadKeys :=
  match loadRunDeaths p runId with
  | .ok dead => dead
  | .error _ => none

theorem loadRunDeaths_eq (p : Packed) (r : Nat) : loadRunDeaths p r = .ok (runDeaths p r) := by
  obtain ⟨de, hD, -⟩ := mergeDeadBlocks_eq _ (deathBlocks_length_le p r)
  have hL : loadRunDeaths p r = .ok de := by simp [loadRunDeaths, packed, hD]
  simp [runDeaths, hL]

theorem deadList_runDeaths (hR : p.run? r = some run) : deadList (runDeaths p r) = sortedKeys run.deadKeys := by
  obtain ⟨de, hD, hK⟩ := mergeDeadBlocks_eq _ (deathBlocks_length_le p r)
  have hL : loadRunDeaths p r = .ok de := by simp [loadRunDeaths, packed, hD]
  obtain rfl := Except.ok.inj ((loadRunDeaths_eq p r).symm.trans hL)
  rw [hK, flatMap_deathBlocks, Run.deadKeys, (run?_some.mp hR).2.2.1]

theorem isDead_runDeaths (hR : p.run? r = some run) (k : EventKey) :
    isDead (runDeaths p r) k = true ↔ k ∈ run.deadKeys := by
  rw [isDead_iff, deadList_runDeaths hR, mem_sortedKeys]

structure OldestOf (p : Packed) (level : Nat) (cohort : List RunMeta) : Prop where
  stored : ∀ m ∈ cohort, p.runMeta[m.runId]? = some m
  level_eq : ∀ m ∈ cohort, m.level = level
  sorted : cohort.Pairwise (fun a b => a.maxEventKey < b.minEventKey)
  oldest : ∀ m, p.runMeta[m.runId]? = some m → m.level = level → m ∉ cohort → ∀ c ∈ cohort, c.maxEventKey < m.minEventKey

def cohortRuns (p : Packed) (cohort : List RunMeta) : List CohortRun :=
  cohort.map fun m => ⟨m, runDeaths p m.runId, (p.dictionary[m.runId]?).getD []⟩

theorem runMeta_cohortRuns (p : Packed) (ch : List RunMeta) : (cohortRuns p ch).map CohortRun.runMeta = ch := by
  simp [cohortRuns, Function.comp_def]

theorem mergedIds_cohortRuns (p : Packed) (ch : List RunMeta) :
    mergedIds (cohortRuns p ch) = ch.map RunMeta.runId := by
  simp [mergedIds, cohortRuns, Function.comp_def]

end

theorem OldestOf.mergeInputs (hp : CatalogOk p) (h : OldestOf p l cohort) : MergeInputs p (cohortRuns p cohort) := by
  refine ⟨fun i hI => ?_, pairwise_map.mpr h.sorted⟩
  obtain ⟨m, hm, rfl⟩ := mem_map.mp hI
  obtain ⟨run, hR, hM⟩ := hp.indexed.exists_run (h.stored m hm)
  refine ⟨run, hR, by rw [hM], by rw [hM], ?_, fun k hK => (isDead_runDeaths hR k).mpr hK⟩
  simp [(run?_some.mp hR).2.1]

theorem OldestOf.ordered (hp : CatalogOk p)
    (h : OldestOf p l cohort) (hr : Merged p (cohortRuns p cohort) o q)
    (r : Nat) (ol : Run) (hO : p.run? r = some ol) (hY : r ∉ cohort.map RunMeta.runId) :
    (o.toMeta (l + 1)).Older ol.runMeta ∨ ol.runMeta.Older (o.toMeta (l + 1)) := by
  obtain ⟨⟨lw, hW, hn⟩, high, hh, hm⟩ := hr.range hp (h.mergeInputs hp)
  obtain ⟨lw, hl, rfl⟩ := mem_map.mp hW
  obtain ⟨high, hH, rfl⟩ := mem_map.mp hh
  simp only at hn hm
  have hI := hp.runId_eq hO
  have hN : ∀ c ∈ cohort, c.runId ≠ r := fun c hc hE => hY (mem_map.mpr ⟨c, hc, hE⟩)
  have hC : ∀ c ∈ cohort, c.Older ol.runMeta ∨ ol.runMeta.Older c := by
    intro c hc
    obtain ⟨run, hR, ht⟩ := hp.indexed.exists_run (h.stored c hc)
    rw [← ht]
    exact hp.ordered hR hO (hN c hc)
  rcases Nat.lt_trichotomy ol.runMeta.level l with hL | hE | hG
  · -- a run further down is newer than the whole cohort
    refine .inl ⟨?_, by simp only [CompactionOutput.toMeta]; omega⟩
    rcases hC high hH with ho | ho
    · exact hm.trans_lt ho.1
    have := ho.2
    have := h.level_eq high hH
    omega
  · have hF := h.oldest ol.runMeta (by rw [hI]; exact (run?_some.mp hO).1) hE
      (fun hM => hN _ hM hI) high hH
    exact .inl ⟨hm.trans_lt hF, by simp only [CompactionOutput.toMeta]; omega⟩
  · refine .inr ⟨?_, by simp only [CompactionOutput.toMeta]; omega⟩
    rcases hC lw hl with ho | ho
    · have := ho.2
      have := h.level_eq lw hl
      omega
    · exact ho.1.trans_le hn

theorem mem_dictionary_of_posts (h : run.Posts fam pfx ev) : (ev.eventKey, ev.id) ∈ run.dictionary := by
  obtain ⟨sg, -, record, -, -, hE⟩ := h
  exact key_mem_of_mem_resolve hE

theorem mem_cohortEntries (hI : i ∈ ins) (hR : Draws p i run) (hP : run.Posts f pfx ev)
    (hL : isDead i.dead ev.eventKey = false) : (ev.eventKey, ev.id) ∈ cohortEntries ins := by
  refine mem_flatMap.mpr ⟨i, hI, mem_filter.mpr ⟨?_, by simp [hL]⟩⟩
  rw [hR.dictionary]
  exact mem_dictionary_of_posts hP

structure Compacts (p : Packed) (level : Nat) (cohort : List RunMeta) (new : Option Run) (p' : Packed) : Prop where
  replaces : Replaces p (cohort.map RunMeta.runId) new p'
  catalogOk : CatalogOk p'
  level_eq : ∀ run, new = some run → run.runMeta.level = level + 1
  max_le : ∀ run, new = some run → ∃ c ∈ cohort, run.runMeta.maxEventKey ≤ c.maxEventKey
  level_le : level + 1 ≤ maxLevel
  posts_iff : ∀ family pfx event, p'.PostsLive family pfx event ↔ p.PostsLive family pfx event
  next_le : p'.nextId ≤ p.nextId + 1

theorem compactCohort_eq (p : Packed) (lv : Nat) (ch : List RunMeta) : compactCohort p lv ch = (do
    Except.refuseIf (lv + 1 > maxLevel) (packedErr "packed run level space exhausted")
    let (o, q) ← streamCompactionCohort p ((cohortRuns p ch).map CohortRun.entry)
    match o with
    | none => pure (ch.foldl deleteRun q)
    | some o => insertRunCatalog (ch.foldl deleteRun q) (o.toMeta (lv + 1))) := by
  have hD : ch.mapM (fun m => loadRunDeaths p m.runId) = .ok (ch.map fun m => runDeaths p m.runId) := by
    rw [mapM_ok, List.forall₂_map_right_iff]
    exact forall₂_same.mpr fun m _ => loadRunDeaths_eq p m.runId
  have hZ : ch.zip (ch.map fun m => runDeaths p m.runId) = (cohortRuns p ch).map CohortRun.entry := by
    have hB := List.zip_map' (f := id) (g := fun m => runDeaths p m.runId) (l := ch)
    simpa [cohortRuns, CohortRun.entry, Function.comp_def] using hB
  unfold compactCohort
  rw [hD, ← hZ]
  rfl

theorem compactCohort_ok (hp : CatalogOk p) (hi : LiveIds p)
    (h : OldestOf p l cohort) (ho : compactCohort p l cohort = .ok p') :
    ∃ n, Compacts p l cohort n p' := by
  have hI := h.mergeInputs hp
  rw [compactCohort_eq] at ho
  simp only [bind_ok, refuseIf_ok] at ho
  obtain ⟨-, hV, ⟨o, q⟩, hS, ho⟩ := ho
  have hd : ∀ r run, p.run? r = some run → r ∈ cohort.map RunMeta.runId →
      ∃ i ∈ cohortRuns p cohort, Draws p i run ∧
        ∀ k, isDead i.dead k = false ↔ k ∉ run.deadKeys := by
    intro r run hR hM
    obtain ⟨m, hm, rfl⟩ := mem_map.mp hM
    have hn : _ ∈ cohortRuns p cohort := mem_map.mpr ⟨m, hm, rfl⟩
    obtain ⟨run', hR'⟩ := hI.draws _ hn
    cases hR'.stored.symm.trans hR
    refine ⟨_, hn, hR', fun k => ?_⟩
    rw [← isDead_runDeaths hR, not_eq_true]
  rcases streamCompactionCohort_ok hp.metas hp.indexed (hI.cohort hp p.deaths) (hI.old hp) hS with
    ⟨rfl, rfl, hZ⟩ | ⟨o, rfl, hr⟩
  · cases ho
    have hl := foldl_deleteRun_deleted q cohort
    have hE := replaces_of_deleted hp (by simpa [runMeta_cohortRuns] using hI.names) hl
    have hX : (cohort.foldl deleteRun q).nextId = q.nextId := by
      rw [Packed.nextId, hl.nextRunId, Packed.nextId]
    refine ⟨none, hE, hp.replace hE (by simp), by simp, by simp, by omega, fun f pf ev => ?_, hX.le.trans (by omega)⟩
    rw [hE.postsLive_iff]
    simp only [reduceCtorEq, false_and, exists_false, false_or]
    constructor
    · rintro ⟨r, run, hK, hP⟩
      exact ⟨r, run, hK.1, hP⟩
    · rintro ⟨r, run, hR, hP⟩
      refine ⟨r, run, ⟨hR, fun hM => ?_, by simp⟩, hP⟩
      obtain ⟨i, hn, ha, hD⟩ := hd r run hR hM
      have := mem_cohortEntries hn ha hP.1 ((hD _).mpr hP.2)
      rw [hZ] at this
      cases this
  · have hU : DeathsOutside p (mergedIds (cohortRuns p cohort)) p.deaths := ⟨fun _ _ _ => rfl, fun _ _ _ h => h⟩
    obtain ⟨hE, hC⟩ := hr.replaces hp hi hI hU (l + 1)
      (by rw [mergedIds_cohortRuns]; exact h.ordered hp hr) (by rw [runMeta_cohortRuns]; exact ho)
    rw [mergedIds_cohortRuns] at hE
    refine ⟨_, hE, hC, fun run hR => ?_, fun run hR => ?_, by omega, fun f pf ev => ?_, ?_⟩
    · cases hR
      rfl
    · cases hR
      obtain ⟨i, hn, hx⟩ := (hr.range hp hI).2
      obtain ⟨m, hm, rfl⟩ := mem_map.mp hn
      exact ⟨m, hm, hx⟩
    · rw [hE.postsLive_iff]
      constructor
      · rintro (⟨run, hR, hP⟩ | ⟨r, run, hK, hP⟩)
        · cases hR
          obtain ⟨i, hn, run, ha, hP, hL⟩ := (hr.posts_written hp hI (l + 1)).mp hP.1
          exact ha.postsLive hP hL
        · exact ⟨r, run, hK.1, hP⟩
      · rintro ⟨r, run, hR, hP⟩
        by_cases hM : r ∈ cohort.map RunMeta.runId
        · obtain ⟨i, hn, ha, hD⟩ := hd r run hR hM
          refine .inl ⟨_, rfl, (hr.posts_written hp hI (l + 1)).mpr
            ⟨i, hn, run, ha, hP.1, (hD _).mpr hP.2⟩, ?_⟩
          rw [written_deadKeys]
          exact not_mem_nil
        · refine .inr ⟨r, run, ⟨hR, hM, fun ad hA => ?_⟩, hP⟩
          cases hA
          have hN : (o.toMeta (l + 1)).runId = p.nextId := hr.runId_eq
          exact hN.trans_ne (hp.run_lt_next hR).2.ne'
    · obtain ⟨-, rfl⟩ := insertRunCatalog_ok.mp ho
      have hX := (foldl_deleteRun_deleted q cohort).nextRunId
      simp only [Packed.nextId, hX, hr.nextRunId, getD_some]
      exact le_rfl

theorem compactCohort_progress (hp : CatalogOk p) (hi : LiveIds p) (hR : Room p)
    (hS : p.nextId + 1 ≤ u64Max) (hL : l + 1 ≤ maxLevel)
    (h : OldestOf p l cohort) : ∃ p', compactCohort p l cohort = .ok p' := by
  have hI := h.mergeInputs hp
  obtain ⟨⟨o, q⟩, hs⟩ := hI.progress hp hR hS p.deaths hp.indexed
  rw [compactCohort_eq]
  simp only [bind_ok, refuseIf_ok]
  rcases streamCompactionCohort_ok hp.metas hp.indexed (hI.cohort hp p.deaths) (hI.old hp) hs with
    ⟨rfl, rfl, -⟩ | ⟨o, rfl, hM⟩
  · exact ⟨_, (), by omega, _, hs, rfl⟩
  · have ho := (hM.runOk hp hi hI (l + 1)).metaOk
    exact ⟨_, (), by omega, _, hs, insertRunCatalog_ok.mpr ⟨ho, rfl⟩⟩

end NmpStore.Postings
