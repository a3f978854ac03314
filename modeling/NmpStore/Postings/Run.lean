import NmpStore.Postings.Format

/-! # Runs: encoding, death blocks, compaction of segments

The encoder sorts the memberships of a batch and cuts them into segments.
-/

namespace NmpStore.Postings

variable [ShardHash]

structure EncodedRun where
  dictionary : Dictionary
  segments : List Segment
  dictionaryEntries : Nat
  deriving DecidableEq

structure CheckedMemberships where
  idsByKey : Table EventKey Nat := ∅
  createdAtByKey : Table EventKey Nat := ∅
  ids : List Nat := []

variable (checked : CheckedMemberships)

def checkId (event : RunEvent) : Except String CheckedMemberships :=
  match checked.idsByKey[event.eventKey]? with
  | none =>
    if event.id ∈ checked.ids then throw "one event id maps to multiple event keys"
    else pure { checked with
      ids := event.id :: checked.ids
      idsByKey := checked.idsByKey.insert event.eventKey event.id }
  | some id =>
    if id ≠ event.id then
      let key := event.eventKey
      throw s!"event key {key} maps to multiple ids"
    else pure checked

def checkCreatedAt (event : RunEvent) : Except String CheckedMemberships :=
  match checked.createdAtByKey[event.eventKey]? with
  | none => pure { checked with createdAtByKey := checked.createdAtByKey.insert event.eventKey event.createdAt }
  | some createdAt =>
    if createdAt ≠ event.createdAt then
      let key := event.eventKey
      throw s!"event key {key} carries more than one created_at"
    else pure checked

def checkMembership (membership : Membership) : Except String CheckedMemberships :=
  if membership.shard ≠ shardFor membership.family membership.pfx then
    throw "membership is assigned to the wrong shard"
  else do
    let checked ← checkId checked membership.event
    checkCreatedAt checked membership.event

def segmentOf (membership : Membership) : Nat × Nat := (membership.family.toU8, membership.shard)

def membershipOrder (left right : Membership) : Ordering :=
  (((compare left.family.toU8 right.family.toU8).then (compare left.shard right.shard)).then
    (compare left.pfx right.pfx)).then (canonicalOrder left.event right.event)

instance : TransCmp membershipOrder :=
  inferInstanceAs (TransCmp (compareLex (compareLex (compareOn segmentOf) (compareOn Membership.pfx))
    (compareLex (compareLex (fun a b => compareOn (fun m : Membership => m.event.createdAt) b a)
      (compareOn (fun m : Membership => m.event.id))) (compareOn (fun m : Membership => m.event.eventKey)))))

def sameMembership (left right : Membership) : Bool :=
  left.family == right.family && left.pfx == right.pfx && left.event.eventKey == right.event.eventKey

def sortMemberships (memberships : List Membership) : List Membership :=
  (memberships.insertionSort (fun a b => (membershipOrder a b).isLE)).destutter
    (fun a b => ¬ sameMembership a b)

def ordinalOf (dictionary : Dictionary) (eventKey : EventKey) : Option Nat :=
  dictionary.findIdx? (fun entry => entry.1 == eventKey)

def encodeRun (memberships : List Membership) : Except String EncodedRun := do
  refuseIf memberships.isEmpty "cannot encode an empty postings run"
  let checked ← memberships.foldlM checkMembership {}
  let entries := checked.idsByKey.toList
  refuseIf (entries.length > u32Max) "run dictionary exceeds u32"
  let groups := Grouping.groups segmentOf (sortMemberships memberships)
  let segments ← groups.mapM fun group =>
    let (family, shard) := (group.head?.map fun first => (first.family, first.shard)).getD (.global, 0)
    encodeSegment family shard group (ordinalOf entries)
  let dictionary ← encodeDictionary entries
  pure ⟨dictionary, segments, entries.length⟩

structure DeadKeys where
  keys : List EventKey
  nonempty : keys ≠ []
  sorted : keys.IsChain (· < ·)
  deriving DecidableEq

def DeadKeys.new (keys : List EventKey) : Except String DeadKeys :=
  if hEmpty : keys = [] then throw "dead-key block is empty"
  else if hSorted : keys.IsChain (· < ·) then pure ⟨keys, hEmpty, hSorted⟩
  else throw "dead keys are not strictly ordered"

def DeadKeys.contains (dead : DeadKeys) (eventKey : EventKey) : Bool :=
  (BinarySearch.binarySearchIndex dead.keys.length
    (fun i => compare (dead.keys[i]?.getD 0) eventKey)).isOk

def maxDeathBlocks : Nat := 8

def sortedKeys (keys : List EventKey) : List EventKey :=
  (keys.insertionSort (· ≤ ·)).destutter (· ≠ ·)

def mergeDeadBlocks (blocks : List DeadKeys) : Except String (Option DeadKeys) := do
  refuseIf (blocks.length > maxDeathBlocks) "dead-key block fan-in exceeds the hard bound"
  let keys := blocks.flatMap DeadKeys.keys
  if keys.isEmpty then pure none
  else return some (← DeadKeys.new (sortedKeys keys))

structure RunMeta where
  runId : Nat
  level : Nat
  minEventKey : Nat
  maxEventKey : Nat
  liveEvents : Nat
  deriving DecidableEq

def RunMeta.encode (runMeta : RunMeta) : Except String RunMeta :=
  if runMeta.minEventKey = 0 ∨ runMeta.minEventKey > runMeta.maxEventKey ∨ runMeta.liveEvents = 0 ∨
      runMeta.liveEvents > runMeta.maxEventKey - runMeta.minEventKey + 1 then
    throw "invalid packed run metadata"
  else pure runMeta

def RunMeta.decode (value : RunMeta) : Except String RunMeta := value.encode

def metaKey (runMeta : RunMeta) : Nat × Nat × Nat :=
  (runMeta.minEventKey, runMeta.maxEventKey, runMeta.runId)

def checkRunMeta (state : Option Nat × List Nat) (runMeta : RunMeta) : Except String (Option Nat × List Nat) := do
  let _ ← runMeta.encode
  refuseIf (runMeta.runId ∈ state.2) "duplicate packed run id"
  refuseIf (state.1.any (fun maximum => runMeta.minEventKey ≤ maximum)) "packed run event-key ranges overlap"
  pure (some runMeta.maxEventKey, runMeta.runId :: state.2)

def validateRunMetas (metas : List RunMeta) : Except String Unit := do
  let ordered := metas.insertionSort (fun a b => (compare (metaKey a) (metaKey b)).isLE)
  let _ ← ordered.foldlM checkRunMeta (none, [])
  pure ()

def checkRecords (family : Family) (shard : Nat) : Option Bytes → List PrefixRecord → Except String Unit
  | _, [] => pure ()
  | previous, record :: records => do
    refuseIf record.postings.isEmpty "empty posting list"
    refuseIf (previous.any (fun pfx => (compare pfx record.pfx).isGE)) "segment prefixes are not strictly ordered"
    refuseIf (shardFor family record.pfx ≠ shard) "prefix is stored in the wrong shard"
    checkRecords family shard (some record.pfx) records

variable (segment : Segment)

def validatePrefixDirectory : Except String Unit :=
  checkRecords segment.family segment.shard none segment.records

def checkPostings (dictionary : Dictionary) : Option RunEvent → List Posting → Except String Unit
  | _, [] => pure ()
  | previous, posting :: postings => do
    let event ← dictionaryEvent dictionary posting.ordinal posting.createdAt
    refuseIf (previous.any (fun prior => canonicalOrder prior event ≠ .lt)) "posting list violates canonical order"
    checkPostings dictionary (some event) postings

def validateSegment (dictionary : Dictionary) : Except String Unit := do
  validatePrefixDirectory segment
  forM segment.records fun record => checkPostings dictionary none record.postings

def segmentPrefix (wanted : Bytes) : Option (List Posting) :=
  match BinarySearch.binarySearchIndex segment.records.length
      (fun i => compare ((segment.records[i]?.map PrefixRecord.pfx).getD []) wanted) with
  | .ok i => segment.records[i]?.map PrefixRecord.postings
  | .error _ => none

structure CompactionSegmentSource where
  segment : Segment
  ordinalMap : List (Option Nat)

def lesserPrefix (minimum : Option Bytes) (record : PrefixRecord) : Option Bytes :=
  match minimum with
  | none => some record.pfx
  | some current => if compare record.pfx current = .lt then some record.pfx else some current

def minimumCompactionPrefix (directories : List (List PrefixRecord)) : Option Bytes :=
  (directories.filterMap List.head?).foldl lesserPrefix none

def matchingLists (pfx : Bytes) (directories : List (List PrefixRecord)) : List (Nat × List Posting) :=
  directories.zipIdx.filterMap fun (directory, source) =>
    match directory with
    | [] => none
    | record :: _ => if record.pfx = pfx then some (source, record.postings) else none

def advance (pfx : Bytes) (directory : List PrefixRecord) : List PrefixRecord :=
  match directory with
  | [] => []
  | record :: records => if record.pfx = pfx then records else record :: records

/-- A prefix with the lists of each input that has it. -/
abbrev MergedPrefix := Bytes × List (Nat × List Posting)

def walkDirectories : Nat → List (List PrefixRecord) → List MergedPrefix
  | 0, _ => []
  | fuel + 1, directories =>
    match minimumCompactionPrefix directories with
    | none => []
    | some pfx => (pfx, matchingLists pfx directories) :: walkDirectories fuel (directories.map (advance pfx))

def postingListHasLive (ordinalMap : List (Option Nat)) : List Posting → Except String Bool
  | [] => pure false
  | posting :: postings =>
    match ordinalMap[posting.ordinal]? with
    | none => throw "compaction posting dictionary ordinal is out of bounds"
    | some (some _) => pure true
    | some none => postingListHasLive ordinalMap postings

variable (sources : List CompactionSegmentSource)

def ordinalMapOf (source : Nat) : List (Option Nat) :=
  (sources[source]?.map CompactionSegmentSource.ordinalMap).getD []

def hasLive (lists : List (Nat × List Posting)) : Except String Bool :=
  lists.foldlM (fun live list => do
    let found ← postingListHasLive (ordinalMapOf sources list.1) list.2
    pure (live || found)) false

structure CompactionList where
  ordinalMap : List (Option Nat)
  postings : List Posting

def nextCompactionPosting (dictionary : Dictionary) (ordinalMap : List (Option Nat)) :
    List Posting → Except String (Option (RunEvent × Nat) × CompactionList)
  | [] => pure (none, ⟨ordinalMap, []⟩)
  | posting :: postings =>
    match ordinalMap[posting.ordinal]? with
    | none => throw "compaction posting dictionary ordinal is out of bounds"
    | some none => nextCompactionPosting dictionary ordinalMap postings
    | some (some outputOrdinal) => do
      let event ← dictionaryEvent dictionary outputOrdinal posting.createdAt
      pure (some (event, outputOrdinal), ⟨ordinalMap, postings⟩)

structure CompactedPostings where
  postings : List Posting := []
  previous : Option (RunEvent × Nat) := none

def visitCompactionPosting (entry : RunEvent × Nat) (done : CompactedPostings) :
    Except String (ForInStep CompactedPostings) :=
  if (done.previous.map Prod.snd) = some entry.2 then pure (.yield done)
  else if done.previous.any (fun prior => canonicalOrder prior.1 entry.1 ≠ .lt) then
    throw "compacted posting list violates canonical order"
  else if done.postings.length + 1 > u32Max then throw "posting count exceeds u32"
  else pure (.yield ⟨done.postings ++ [⟨entry.1.createdAt, entry.2⟩], some entry⟩)

def mergePostings (dictionary : Dictionary) (sources : List CompactionSegmentSource)
    (lists : List (Nat × List Posting)) : Except String (List Posting) := do
  let done ← KWayMerge.merge (fun list : CompactionList =>
      nextCompactionPosting dictionary list.ordinalMap list.postings)
    (fun entry => entry.1.rank) visitCompactionPosting (lists.flatMap Prod.snd).length
    (lists.map fun list => ⟨ordinalMapOf sources list.1, list.2⟩) {}
  pure done.postings

def compactRecords (dictionary : Dictionary) (sources : List CompactionSegmentSource) :
    Nat → List MergedPrefix → Except String (List PrefixRecord)
  | _, [] => pure []
  | len, (pfx, lists) :: rest => do
    if ← hasLive sources lists then
      refuseIf (len > u32Max) "segment offset exceeds u32"
      refuseIf (pfx.length > u32Max) "prefix exceeds u32"
      let postings ← mergePostings dictionary sources lists
      refuseIf postings.isEmpty "live compaction prefix produced no postings"
      let records ← compactRecords dictionary sources (len + recordLen pfx postings.length) rest
      pure (⟨pfx, postings⟩ :: records)
    else compactRecords dictionary sources len rest

def countLiveCompactionPrefixes
    (walk : List MergedPrefix) : Except String Nat :=
  walk.foldlM (fun count entry => do
    let live ← hasLive sources entry.2
    pure (if live then count + 1 else count)) 0

def checkCompactionSource (family : Family) (shard : Nat) (source : CompactionSegmentSource) : Except String Unit := do
  refuseIf (source.segment.family ≠ family ∨ source.segment.shard ≠ shard)
    "compaction segment is assigned to the wrong family or shard"
  validatePrefixDirectory source.segment

def compactSegment (family : Family) (shard : Nat) (sources : List CompactionSegmentSource)
    (dictionary : Dictionary) : Except String (Option Segment) :=
  if sources.isEmpty then pure none
  else do
    forM sources (checkCompactionSource family shard)
    let directories := sources.map (fun source => source.segment.records)
    let walk := walkDirectories directories.flatten.length directories
    let prefixCount ← countLiveCompactionPrefixes sources walk
    if prefixCount = 0 then pure none
    else do
      refuseIf (prefixCount > u32Max) "segment prefix count exceeds u32"
      let records ← compactRecords dictionary sources (segmentHeaderLen + 4 * prefixCount) walk
      refuseIf (records.length ≠ prefixCount) "compaction prefix count changed during encoding"
      pure (some ⟨family, shard, records⟩)

end NmpStore.Postings
