import NmpStore.Postings.Run

/-! # The run catalog and its publication

Runs are published once per batch at level 0 and merged into the next level as soon as a level is full.
-/

namespace NmpStore.Postings

variable [ShardHash]

structure Packed where
  runMeta : Table Nat RunMeta := ∅
  dictionary : Table Nat Dictionary := ∅
  byMin : Table EventKey Nat := ∅
  deaths : Table (Nat × Nat) DeadKeys := ∅
  segments : Table (Nat × Nat × Nat) Segment := ∅
  nextRunId : Option Nat := none

def baseRunFanIn : Nat := 8
def largeRunFanIn : Nat := 6

structure PendingEvent where
  event : RunEvent
  author : Bytes
  kind : Bytes
  tags : List Bytes
  deriving DecidableEq

abbrev PendingEvents := Table EventKey PendingEvent

omit [ShardHash] in
theorem keyed_empty (ky : EventKey) (pending : PendingEvent) (h : (∅ : PendingEvents)[ky]? = some pending) :
    pending.event.eventKey = ky := by
  simp at h

structure PostingsBatch where
  additions : PendingEvents := ∅
  deaths : ExtTreeSet EventKey := ∅
  keyed : ∀ (key : EventKey) pending, additions[key]? = some pending → pending.event.eventKey = key := by
    exact NmpStore.Postings.keyed_empty

def PostingsBatch.insert (batch : PostingsBatch) (pending : PendingEvent) : PostingsBatch where
  deaths := batch.deaths.erase pending.event.eventKey
  additions := batch.additions.insert pending.event.eventKey pending
  keyed := by
    intro key other h
    rw [get_insert] at h
    split at h
    · cases h; assumption
    · exact batch.keyed key other h

def PostingsBatch.remove (batch : PostingsBatch) (eventKey : EventKey) : PostingsBatch :=
  match batch.additions[eventKey]? with
  | none => { batch with deaths := batch.deaths.insert eventKey }
  | some _ =>
    { batch with
      additions := batch.additions.erase eventKey
      keyed := by
        intro key pending h
        rw [get_erase] at h
        split at h
        · cases h
        · exact batch.keyed key pending h }

def packedErr (error : String) : PersistenceError := ⟨"packed postings: " ++ error⟩

def packed {α : Type} (x : Except String α) : Result α := x.mapError packedErr

def segmentKey (family : Family) (shard runId : Nat) : Nat × Nat × Nat := (family.toU8, shard, runId)

def catalogRunMetas (p : Packed) : Result (List RunMeta) :=
  p.runMeta.toList.mapM fun (runId, value) => do
    let runMeta ← packed (RunMeta.decode value)
    refuseIf (runMeta.runId ≠ runId) (packedErr "run metadata key disagrees with its value")
    pure runMeta

def checkRunRange (p : Packed) (runMeta : RunMeta) : Result Unit :=
  match p.byMin[runMeta.minEventKey]? with
  | none =>
    let runId := runMeta.runId
    throw (packedErr s!"run {runId} has no run-range entry")
  | some mapped =>
    if mapped ≠ runMeta.runId then
      let minEventKey := runMeta.minEventKey
      throw (packedErr s!"run-range entry for {minEventKey} names run {mapped}")
    else pure ()

def loadRunCatalog (p : Packed) : Result (List RunMeta) := do
  let metas ← catalogRunMetas p
  packed (validateRunMetas metas)
  refuseIf (p.byMin.size ≠ metas.length) (packedErr "packed run-range index does not match the run catalog")
  forM metas (checkRunRange p)
  pure metas

def checkDictionary (p : Packed) (runMeta : RunMeta) : Result Unit :=
  match p.dictionary[runMeta.runId]? with
  | none =>
    let runId := runMeta.runId
    throw (packedErr s!"run {runId} has no dictionary")
  | some _ => pure ()

def freeRunId : Option Nat → Option Nat → Result Nat
  | none, none => pure 1
  | none, some highest => throw (packedErr s!"packed run allocator is missing while run {highest} is live")
  | some 0, _ => throw (packedErr "packed run allocator is zero")
  | some next, none => pure next
  | some next, some highest =>
    if next > highest then pure next
    else throw (packedErr s!"packed run allocator {next} would reuse live run id {highest}")

def allocateRunId (p : Packed) : Result (Nat × Packed) := do
  let runs ← loadRunCatalog p
  refuseIf (p.dictionary.size ≠ runs.length) (packedErr "packed dictionaries do not match the run catalog")
  forM runs (checkDictionary p)
  let runId ← freeRunId p.nextRunId (runs.map RunMeta.runId).max?
  refuseIf (runId + 1 > u64Max) (packedErr "run id space exhausted")
  pure (runId, { p with nextRunId := some (runId + 1) })

def insertRunCatalog (p : Packed) (runMeta : RunMeta) : Result Packed := do
  let encoded ← packed runMeta.encode
  pure { p with
    runMeta := p.runMeta.insert runMeta.runId encoded
    byMin := p.byMin.insert runMeta.minEventKey runMeta.runId }

def insertRun (p : Packed) (runMeta : RunMeta) (encoded : EncodedRun) : Result Packed :=
  let p := { p with dictionary := p.dictionary.insert runMeta.runId encoded.dictionary }
  let p := { p with segments := encoded.segments.foldl (fun segments segment =>
    segments.insert (segmentKey segment.family segment.shard runMeta.runId) segment) p.segments }
  insertRunCatalog p runMeta

def segmentKeys (runId : Nat) : List (Nat × Nat × Nat) :=
  Family.all.flatMap fun family => (List.range (shardMask + 1)).map fun shard => segmentKey family shard runId

def deathKeys (runId : Nat) : List (Nat × Nat) :=
  (List.range maxDeathBlocks).map fun level => (runId, level)

def deleteRun (p : Packed) (runMeta : RunMeta) : Packed where
  segments := Table.eraseAll p.segments (segmentKeys runMeta.runId)
  dictionary := p.dictionary.erase runMeta.runId
  runMeta := p.runMeta.erase runMeta.runId
  byMin := p.byMin.erase runMeta.minEventKey
  deaths := Table.eraseAll p.deaths (deathKeys runMeta.runId)
  nextRunId := p.nextRunId

def deathBlocks (p : Packed) (runId : Nat) : List DeadKeys :=
  (deathKeys runId).filterMap fun key => p.deaths[key]?

def loadRunDeaths (p : Packed) (runId : Nat) : Result (Option DeadKeys) :=
  packed (mergeDeadBlocks (deathBlocks p runId))

def isDead (dead : Option DeadKeys) (eventKey : EventKey) : Bool :=
  dead.any (fun keys => keys.contains eventKey)

def copyEntries (dead : Option DeadKeys) : Dictionary → Dictionary → List (Option Nat) →
    Result (Dictionary × List (Option Nat))
  | [], entries, ordinalMap => pure (entries, ordinalMap)
  | (eventKey, id) :: rest, entries, ordinalMap =>
    if isDead dead eventKey then copyEntries dead rest entries (ordinalMap ++ [none])
    else if entries.getLast?.any (fun last => last.1 ≥ eventKey) then
      throw (packedErr "compaction cohort dictionaries are not range ordered")
    else if entries.length > u32Max then throw (packedErr "compaction dictionary exceeds u32")
    else copyEntries dead rest (entries ++ [(eventKey, id)]) (ordinalMap ++ [some entries.length])

def copyDictionaries (p : Packed) : List (RunMeta × Option DeadKeys) → Dictionary → List (List (Option Nat)) →
    Result (Dictionary × List (List (Option Nat)))
  | [], entries, ordinalMaps => pure (entries, ordinalMaps)
  | (runMeta, dead) :: cohort, entries, ordinalMaps => do
    match p.dictionary[runMeta.runId]? with
    | none => throw (packedErr "run has no dictionary")
    | some bytes =>
      let dictionary ← packed (validateDictionary bytes)
      let (entries, ordinalMap) ← copyEntries dead dictionary entries []
      copyDictionaries p cohort entries (ordinalMaps ++ [ordinalMap])

def cohortSegments (p : Packed) (cohort : List RunMeta) (ordinalMaps : List (List (Option Nat)))
    (family : Family) (shard : Nat) : List CompactionSegmentSource :=
  (cohort.zip ordinalMaps).filterMap fun (runMeta, ordinalMap) =>
    (p.segments[segmentKey family shard runMeta.runId]?).map fun segment => ⟨segment, ordinalMap⟩

def allShards : List (Family × Nat) :=
  Family.all.flatMap fun family => (List.range (shardMask + 1)).map fun shard => (family, shard)

def compactSegments (cohort : List RunMeta) (ordinalMaps : List (List (Option Nat))) (dictionary : Dictionary)
    (runId : Nat) : List (Family × Nat) → Packed → Nat → Result (Packed × Nat)
  | [], p, postings => pure (p, postings)
  | (family, shard) :: rest, p, postings => do
    match ← packed (compactSegment family shard (cohortSegments p cohort ordinalMaps family shard) dictionary) with
    | none => compactSegments cohort ordinalMaps dictionary runId rest p postings
    | some segment =>
      let count := (segment.records.map (fun record => record.postings.length)).sum
      compactSegments cohort ordinalMaps dictionary runId rest
        { p with segments := p.segments.insert (segmentKey family shard runId) segment } (postings + count)

structure CompactionOutput where
  runId : Nat
  minEventKey : EventKey
  maxEventKey : EventKey
  liveEvents : Nat

def streamCompactionCohort (p : Packed) (cohort : List (RunMeta × Option DeadKeys)) :
    Result (Option CompactionOutput × Packed) := do
  let (entries, ordinalMaps) ← copyDictionaries p cohort [] []
  match entries.head?, entries.getLast? with
  | some first, some last =>
    let dictionary ← packed (encodeDictionary entries)
    let (runId, p) ← allocateRunId p
    let p := { p with dictionary := p.dictionary.insert runId dictionary }
    let (p, postings) ← compactSegments (cohort.map Prod.fst) ordinalMaps dictionary runId allShards p 0
    refuseIf (postings = 0) (packedErr "nonempty compaction dictionary produced no live segments")
    pure (some ⟨runId, first.1, last.1, entries.length⟩, p)
  | _, _ => pure (none, p)

def maxLevel : Nat := 255

def compactCohort (p : Packed) (level : Nat) (cohort : List RunMeta) : Result Packed := do
  refuseIf (level + 1 > maxLevel) (packedErr "packed run level space exhausted")
  let dead ← cohort.mapM fun runMeta => loadRunDeaths p runMeta.runId
  let (output, p) ← streamCompactionCohort p (cohort.zip dead)
  let p := cohort.foldl deleteRun p
  match output with
  | none => pure p
  | some output =>
    insertRunCatalog p ⟨output.runId, level + 1, output.minEventKey, output.maxEventKey, output.liveEvents⟩

def fanIn (level : Nat) : Nat := if level = 0 then baseRunFanIn else largeRunFanIn

def overfullCohort (level : Nat) (metas : List RunMeta) : Option (List RunMeta) :=
  let cohort := metas.filter (fun runMeta => runMeta.level = level)
  if cohort.length < fanIn level then none
  else some ((cohort.insertionSort (fun a b => a.minEventKey ≤ b.minEventKey)).take (fanIn level))

def compactLevels : Nat → Nat → Packed → Result Packed
  | 0, _, p => pure p
  | fuel + 1, level, p => do
    let metas ← catalogRunMetas p
    match overfullCohort level metas with
    | some cohort =>
      let p ← compactCohort p level cohort
      compactLevels fuel level p
    | none =>
      if metas.any (fun runMeta => runMeta.level > level) then
        refuseIf (level + 1 > maxLevel) (packedErr "packed run level space exhausted")
        compactLevels fuel (level + 1) p
      else pure p

def compactOverfullLevels (p : Packed) : Result Packed :=
  compactLevels (p.runMeta.size + maxLevel + 2) 0 p

def rewriteRunWithoutDead (p : Packed) (oldMeta : RunMeta) (dead : DeadKeys) : Result Packed := do
  let (output, p) ← streamCompactionCohort p [(oldMeta, some dead)]
  match output with
  | none =>
    let runId := oldMeta.runId
    let liveEvents := oldMeta.liveEvents
    throw (packedErr (s!"run {runId} has live_events={liveEvents} but rewriting its death set produced no surviving " ++
      "events; refusing to delete it in favor of nothing"))
  | some output =>
    insertRunCatalog (deleteRun p oldMeta)
      ⟨output.runId, oldMeta.level, output.minEventKey, output.maxEventKey, output.liveEvents⟩

def carryDeaths (runMeta : RunMeta) : List Nat → Packed → DeadKeys → Result Packed
  | [], p, carry => rewriteRunWithoutDead p runMeta carry
  | level :: levels, p, carry => do
    match p.deaths[(runMeta.runId, level)]? with
    | some prior =>
      let p := { p with deaths := p.deaths.erase (runMeta.runId, level) }
      match ← packed (mergeDeadBlocks [prior, carry]) with
      | some merged => carryDeaths runMeta levels p merged
      | none => carryDeaths runMeta levels p carry
    | none =>
      let encoded ← packed runMeta.encode
      pure { p with
        deaths := p.deaths.insert (runMeta.runId, level) carry
        runMeta := p.runMeta.insert runMeta.runId encoded }

def applyRunDeaths (p : Packed) (runId : Nat) (keys : List EventKey) : Result Packed := do
  match p.runMeta[runId]? with
  | none => throw (packedErr "death target has no run metadata")
  | some value =>
    let runMeta ← packed (RunMeta.decode value)
    match p.dictionary[runId]? with
    | none => throw (packedErr s!"run {runId} has no dictionary")
    | some dictionary =>
      let totalEvents := dictionary.length
      let existing ← packed (mergeDeadBlocks (deathBlocks p runId))
      let fresh := sortedKeys (keys.filter fun key => !isDead existing key)
      if fresh.isEmpty then return p
      let totalDead := (existing.map fun dead => dead.keys.length).getD 0 + fresh.length
      refuseIf (totalDead > totalEvents)
        (packedErr s!"run {runId} has {totalDead} dead events but only {totalEvents} in its dictionary")
      let runMeta : RunMeta := { runMeta with liveEvents := totalEvents - totalDead }
      if runMeta.liveEvents = 0 then return deleteRun p runMeta
      let carry ← packed (DeadKeys.new fresh)
      carryDeaths runMeta (List.range maxDeathBlocks) p carry

def fileDeath (p : Packed) (byRun : Table Nat (List EventKey)) (eventKey : EventKey) :
    Result (Table Nat (List EventKey)) := do
  match p.byMin.floor eventKey with
  | none => pure byRun
  | some (_, runId) =>
    match p.runMeta[runId]? with
    | none => throw (packedErr s!"run-range entry names run {runId}, which has no metadata")
    | some value =>
      let runMeta ← packed (RunMeta.decode value)
      if eventKey ≤ runMeta.maxEventKey then
        pure (byRun.insert runId ((byRun[runId]?).getD [] ++ [eventKey]))
      else pure byRun

def applyDeaths (p : Packed) (deaths : List EventKey) : Result Packed := do
  let byRun ← deaths.foldlM (fileDeath p) ∅
  byRun.toList.foldlM (fun p (runId, keys) => applyRunDeaths p runId keys) p

def pendingMemberships (pending : PendingEvent) : List (Family × Bytes) :=
  [(.global, []), (.author, pending.author), (.kind, pending.kind)] ++ pending.tags.map (fun tag => (.tag, tag))

def membershipsForPending (events : PendingEvents) : List Membership :=
  events.toList.flatMap fun (_, pending) =>
    (pendingMemberships pending).map fun (family, pfx) => ⟨family, shardFor family pfx, pfx, pending.event⟩

def publishPending (p : Packed) (events : PendingEvents) : Result Packed := do
  let (runId, p) ← allocateRunId p
  let encoded ← packed (encodeRun (membershipsForPending events))
  let minEventKey := events.keys.head?.getD 0
  let maxEventKey := events.keys.getLast?.getD 0
  let p ← insertRun p ⟨runId, 0, minEventKey, maxEventKey, encoded.dictionaryEntries⟩ encoded
  compactOverfullLevels p

def flush (p : Packed) (batch : PostingsBatch) : Result Packed := do
  let p ← if batch.deaths.isEmpty then pure p else applyDeaths p batch.deaths.toList
  if batch.additions.isEmpty then pure p else publishPending p batch.additions

end NmpStore.Postings
