import NmpStore.Postings.Catalog

/-! # Scanning the packed postings

A scan loads every run that holds one of its prefixes, places a cursor in each posting list by binary search and merges
the lists, passing over dead events.
-/

namespace NmpStore.Postings

variable [ShardHash]

structure PackedScan where
  family : Family
  prefixes : List Bytes
  since : Nat
  untilTime : Nat
  before : Option (Nat × Nat)
  limit : Option Nat

variable (dictionary : Dictionary) (list : List Posting)

def postingEvent (ordinal : Nat) : Except String RunEvent :=
  match list[ordinal]? with
  | none => throw "posting ordinal out of bounds"
  | some posting => dictionaryEvent dictionary posting.ordinal posting.createdAt

variable (target : Nat × Nat)

def compareTarget (event : RunEvent) : Ordering :=
  (compare target.1 event.createdAt).then (compare event.id target.2)

def comparePosting (ordinal : Nat) : Ordering :=
  match postingEvent dictionary list ordinal with
  | .error _ => .eq
  | .ok event => compareTarget target event

def searchPostings :
    Except String (Except Nat Nat) :=
  match BinarySearch.binarySearchIndex list.length (comparePosting dictionary list target) with
  | .error index => pure (.error index)
  | .ok index => do
    let _ ← postingEvent dictionary list index
    pure (.ok index)

structure PostingCursor where
  list : List Posting
  dictionary : Dictionary
  nextOrdinal : Nat
  since : Nat
  exhausted : Bool

def untilStart (untilTime : Nat) : Except String Nat :=
  if untilTime = u64Max then pure 0
  else do
    match ← searchPostings dictionary list (untilTime, 0) with
    | .ok index => pure index
    | .error index => pure index

def beforeStart (start : Nat) : Option (Nat × Nat) → Except String Nat
  | none => pure start
  | some before => do
    match ← searchPostings dictionary list before with
    | .ok index => pure (max start (index + 1))
    | .error index => pure (max start index)

def cursor (before : Option (Nat × Nat)) (since untilTime : Nat) :
    Except String PostingCursor := do
  let start ← untilStart dictionary list untilTime
  let start ← beforeStart dictionary list start before
  pure ⟨list, dictionary, start, since, false⟩

def PostingCursor.next (c : PostingCursor) : Except String (Option RunEvent × PostingCursor) :=
  if c.exhausted ∨ c.nextOrdinal ≥ c.list.length then pure (none, c)
  else do
    let event ← postingEvent c.dictionary c.list c.nextOrdinal
    let c := { c with nextOrdinal := c.nextOrdinal + 1 }
    if event.createdAt < c.since then pure (none, { c with exhausted := true })
    else pure (some event, c)

def nextLiveFuel (dead : Option DeadKeys) : Nat → PostingCursor → Except String (Option RunEvent × PostingCursor)
  | 0, c => pure (none, c)
  | fuel + 1, c => do
    match ← c.next with
    | (none, c) => pure (none, c)
    | (some event, c) => if isDead dead event.eventKey then nextLiveFuel dead fuel c else pure (some event, c)

def PostingCursor.nextLive (dead : Option DeadKeys) (c : PostingCursor) :
    Except String (Option RunEvent × PostingCursor) :=
  nextLiveFuel dead (c.list.length + 1) c

structure ScanSource where
  cursor : PostingCursor
  dead : Option DeadKeys

/-- A run as a scan holds it: dictionary, the segments with a wanted prefix, and its dead keys. -/
structure LoadedRun where
  dictionary : Dictionary
  segments : List Segment
  dead : Option DeadKeys

def segmentMatches (prefixes : List Bytes) (segment : Segment) : Bool :=
  prefixes.any fun pfx => (segmentPrefix segment pfx).isSome

def loadRun (p : Packed) (scan : PackedScan) (shards : List Nat) (runMeta : RunMeta) :
    Result (Option LoadedRun) := do
  let candidates := shards.filterMap fun shard => p.segments[segmentKey scan.family shard runMeta.runId]?
  if candidates.isEmpty then return none
  match p.dictionary[runMeta.runId]? with
  | none =>
    let runId := runMeta.runId
    throw (packedErr s!"run {runId} has no dictionary")
  | some bytes =>
    let dictionary ← packed (validateOrder bytes)
    forM candidates fun segment => packed (validateSegment segment dictionary)
    let segments := candidates.filter (segmentMatches scan.prefixes)
    if segments.isEmpty then return none
    let dead ← loadRunDeaths p runMeta.runId
    return some ⟨dictionary, segments, dead⟩

def runSources (scan : PackedScan) (run : LoadedRun) : Result (List ScanSource) := do
  let lists := run.segments.flatMap fun segment => scan.prefixes.filterMap (segmentPrefix segment)
  lists.mapM fun list => do
    let c ← packed (cursor run.dictionary list scan.before scan.since scan.untilTime)
    pure ⟨c, run.dead⟩

def scanSources (p : Packed) (scan : PackedScan) : Result (List ScanSource) := do
  let shards := sortedKeys (scan.prefixes.map (shardFor scan.family))
  let runs ← loadRunCatalog p
  let loaded ← runs.mapM (loadRun p scan shards)
  let sources ← (loaded.filterMap id).mapM (runSources scan)
  pure sources.flatten

section Merge

variable {τ T : Type}

structure ScanState (T : Type) where
  seen : List EventKey := []
  output : List T := []

def visitHead (limit : Option Nat) (project : EventKey → Nat → StateT τ (Result) (Option T))
    (event : RunEvent) (state : ScanState T) : StateT τ (Result) (ForInStep (ScanState T)) :=
  if event.eventKey ∈ state.seen then pure (.yield state)
  else do
    let state := { state with seen := event.eventKey :: state.seen }
    match ← project event.eventKey event.id with
    | none => pure (.yield state)
    | some projected =>
      let state := { state with output := state.output ++ [projected] }
      if limit = some state.output.length then pure (.done state) else pure (.yield state)

def nextScanEvent (source : ScanSource) : StateT τ (Result) (Option RunEvent × ScanSource) := do
  let (event, c) ← liftM (packed (source.cursor.nextLive source.dead))
  pure (event, { source with cursor := c })

def scanPacked (p : Packed) (scan : PackedScan)
    (project : EventKey → Nat → StateT τ (Result) (Option T)) :
    StateT τ (Result) (List T) := do
  if scan.limit = some 0 then return []
  let sources ← liftM (scanSources p scan)
  let fuel := (sources.map fun source => source.cursor.list.length).sum
  let state ← KWayMerge.merge nextScanEvent RunEvent.rank (visitHead scan.limit project) fuel sources {}
  return state.output

end Merge

end NmpStore.Postings
