import NmpStore.Store.Settle

/-! # Planning replaceable operations

Several edits of one replaceable value are kept as operations on its coordinate and are materialized together into one
event, a generation.
-/

namespace NmpStore.Semantic

abbrev MaterializationId := Nat

def maxProgramBytes : Nat := 64 * 1024
def maxCoordinateIdentifierBytes : Nat := 65536
def maxContributingOperations : Nat := 1000000
def maxResolutionReasonBytes : Nat := 4096

structure SemanticPlan where
  version : Nat
  bytes : Bytes
  version_ne : version ≠ 0
  bytes_le : bytes.length ≤ maxProgramBytes
  deriving DecidableEq

inductive OperationResolution where
  | contributing
  | resolved
  | cancelled
  | refused (reason : String)
  deriving DecidableEq

structure ResolvedOperation where
  intentId : IntentId
  resolution : OperationResolution
  deriving DecidableEq

inductive StartingSource where
  | event (id : EventId)
  | capabilityDefault
  deriving DecidableEq

structure StartingSourceRequirement where
  plan : Nat
  access : Nat
  source : StartingSource
  deriving DecidableEq

inductive OperationSourceRequirement where
  | awaiting (requirement : StartingSourceRequirement)
  | qualified (requirement : StartingSourceRequirement)
  | capabilityDefault (requirement : StartingSourceRequirement)
  deriving DecidableEq

inductive QualifiedSource where
  | unresolved
  | event (eventId : EventId) (createdAt : Nat)
  deriving DecidableEq

structure SourceEvidence where
  plan : Nat
  access : Nat
  qualified : QualifiedSource
  deriving DecidableEq

structure SourceRevision where
  ordinal : Nat
  evidence : SourceEvidence
  deriving DecidableEq

structure SemanticOperation where
  intentId : IntentId
  program : Nat
  format : Nat
  sourceRequirement : OperationSourceRequirement
  acceptedAt : Nat
  plan : SemanticPlan
  deriving DecidableEq

abbrev SemanticProgramDigest := Nat

class ProgramDigest where
  semanticProgramDigest : List SemanticOperation → SemanticProgramDigest

export ProgramDigest (semanticProgramDigest)

structure SemanticGeneration where
  materialization : MaterializationRef
  createdAt : Nat
  members : ExtTreeSet IntentId
  sourceRevision : SourceRevision
  programDigest : SemanticProgramDigest
  deriving DecidableEq

inductive PendingMaterializationState where
  | awaitingSigner
  | pending
  deriving DecidableEq

def PendingMaterializationState.intentSigState : PendingMaterializationState → IntentSigState
  | .awaitingSigner => .awaitingSigner
  | .pending => .pending

/-- A generation prepared outside the store. The event is unsigned; `verifiesId` says whether an id that
came with it is the id of its body. -/
structure MaterializationCandidate where
  event : Event
  verifiesId : Bool
  routing : String
  sigState : PendingMaterializationState

structure SemanticAccept where
  coordinate : Coordinate
  program : Nat
  format : Nat
  expectedSourceRevision : Option SourceRevision
  expectedProgramDigest : Option SemanticProgramDigest
  expectedCurrentMaterialization : Option MaterializationId
  startingSource : StartingSourceRequirement
  source : SourceEvidence
  sourceEvent : Option StoredEvent
  plan : SemanticPlan
  materialized : Option MaterializationCandidate
  contributingOperations : List IntentId
  resolvedOperations : List ResolvedOperation

structure SemanticRematerialize where
  coordinate : Coordinate
  expectedSourceRevision : SourceRevision
  expectedProgramDigest : SemanticProgramDigest
  expectedCurrentMaterialization : Option MaterializationId
  source : SourceEvidence
  evaluatedAt : Nat
  materialized : Option MaterializationCandidate
  contributingOperations : List IntentId
  resolvedOperations : List ResolvedOperation

structure SemanticSourceInstall where
  source : StoredEvent
  successor : SemanticRematerialize

inductive SemanticRefusal where
  | invalidCoordinate
  | incompatibleReplayProgram
  | sourceUnresolved
  | invalidSourceRevision
  | sourceRevisionExhausted
  | nonCanonicalOperationOrder
  | duplicateOperation (intentId : IntentId)
  | unknownOperation (intentId : IntentId)
  | tooManyContributingOperations
  | resolutionReasonTooLarge
  | materializationDoesNotMatchCoordinate
  | materializationMembershipMismatch
  | materializationTimestampMismatch
  | materializationTimestampOverflow
  | materializationExpired
  | materializationIdExhausted
  | materializationEventIdCollision
  | materializationTombstoned
  deriving DecidableEq

structure SemanticResourceState where
  coordinate : Coordinate
  sourceRevision : SourceRevision
  operations : List SemanticOperation
  source : Option StoredEvent
  lastMaterializationId : Option MaterializationId
  generation : Option SemanticGeneration
  deriving DecidableEq

structure SemanticReceiptUpdate where
  intentId : IntentId
  resolution : OperationResolution
  current : Option MaterializationRef
  deriving DecidableEq

structure SemanticTransitionPlan where
  previous : Option SemanticResourceState
  next : Option SemanticResourceState
  receiptUpdates : List SemanticReceiptUpdate
  materializationHighWater : Option MaterializationId
  candidate : Option MaterializationCandidate
  removedGeneration : Option SemanticGeneration

namespace SourceRevision

def initial (evidence : SourceEvidence) : SourceRevision :=
  ⟨if evidence.qualified = .unresolved then 0 else 1, evidence⟩

def reconcile (previous : SourceRevision) (evidence : SourceEvidence) : Except SemanticRefusal SourceRevision :=
  if previous.evidence = evidence then pure previous
  else if previous.ordinal + 1 > u64Max then throw .sourceRevisionExhausted
  else pure ⟨previous.ordinal + 1, evidence⟩

def createdAt (revision : SourceRevision) : Option Nat :=
  match revision.evidence.qualified with
  | .event _ createdAt => some createdAt
  | .unresolved => none

end SourceRevision

/-- Whether the stored row is the source the evidence names: same id, same time and no open draft. -/
def validSourceEvent (evidence : SourceEvidence) (source : Option StoredEvent) : Bool :=
  match evidence.qualified, source with
  | .event eventId createdAt, some source =>
    source.event.id = eventId && source.event.createdAt = createdAt &&
      !source.provenance.localOrigin.any (·.sigState = .pending)
  | .unresolved, none => true
  | _, _ => false

def validateSourceEvent (evidence : SourceEvidence) (source : Option StoredEvent) : Except SemanticRefusal Unit :=
  refuseIf (validSourceEvent evidence source = false) .invalidSourceRevision

def OperationSourceRequirement.requirement : OperationSourceRequirement → StartingSourceRequirement
  | .awaiting requirement => requirement
  | .qualified requirement => requirement
  | .capabilityDefault requirement => requirement

def OperationSourceRequirement.isCapabilityDefault : OperationSourceRequirement → Bool
  | .capabilityDefault _ => true
  | _ => false

def OperationSourceRequirement.isAwaiting : OperationSourceRequirement → Bool
  | .awaiting _ => true
  | _ => false

def sourceQualifies (required : StartingSourceRequirement) (evidence : SourceEvidence) : Bool :=
  required.plan = evidence.plan && required.access = evidence.access &&
    match required.source, evidence.qualified with
    | .event expected, .event eventId _ => expected = eventId
    | _, _ => false

def qualifyOperation (evidence : SourceEvidence) (operation : SemanticOperation) : SemanticOperation :=
  match operation.sourceRequirement with
  | .awaiting requirement =>
    if sourceQualifies requirement evidence then { operation with sourceRequirement := .qualified requirement }
    else operation
  | _ => operation

variable (operations : List SemanticOperation)

def qualifyOperations (evidence : SourceEvidence) : List SemanticOperation :=
  operations.map (qualifyOperation evidence)

variable (coordinate : Coordinate)

def validCoordinate : Bool :=
  (addressKeyForCoordinate coordinate).isSome &&
    coordinate.identifier.utf8ByteSize ≤ maxCoordinateIdentifierBytes

def validateCoordinate : Except SemanticRefusal Unit :=
  refuseIf (validCoordinate coordinate = false) .invalidCoordinate

def matchesCoordinate (event : Event) (coordinate : Coordinate) : Bool :=
  event.pubkey = coordinate.publicKey && event.kind = coordinate.kind &&
    (!isAddressableKind coordinate.kind || event.tags.identifier.getD "" = coordinate.identifier)

def validateMaterialized (candidate : MaterializationCandidate) :
    Except SemanticRefusal Unit := do
  validateCoordinate coordinate
  refuseIf ((matchesCoordinate candidate.event coordinate && candidate.verifiesId) = false)
    .materializationDoesNotMatchCoordinate

def following (time : Option Nat) : Except SemanticRefusal Nat :=
  match time with
  | none => pure 0
  | some time => if time + 1 > u64Max then throw .materializationTimestampOverflow else pure (time + 1)

def latestAccepted : Nat :=
  (operations.map (·.acceptedAt)).foldl max 0

/-- A generation carries the first time that follows its operations, its source and its predecessor. -/
def validateExactTimestamp (candidate : Nat) (source : SourceRevision) (previous : Option SemanticGeneration)
    (operations : List SemanticOperation) : Except SemanticRefusal Unit := do
  let sourceTime ← following source.createdAt
  let priorTime ← following (previous.map (·.createdAt))
  refuseIf (candidate ≠ max (max (latestAccepted operations) sourceTime) priorTime)
    .materializationTimestampMismatch

def memberIds : List IntentId := operations.map (·.intentId)

def validateResolutionPartition (contributing : List IntentId)
    (resolved : List IntentId) : Except SemanticRefusal Unit := do
  refuseIf (¬ contributing.Nodup) .nonCanonicalOperationOrder
  (memberIds operations).forM fun intentId => do
    refuseIf (intentId ∈ contributing ∧ intentId ∈ resolved) (.duplicateOperation intentId)
    refuseIf (intentId ∉ contributing ∧ intentId ∉ resolved) (.unknownOperation intentId)
  match ((Std.ExtTreeSet.ofList contributing).toList ++ resolved).find? (· ∉ memberIds operations) with
  | some intentId => throw (.unknownOperation intentId)
  | none => refuseIf ((memberIds operations).filter (· ∈ contributing) ≠ contributing) .nonCanonicalOperationOrder

def resolveOne (resolved : Table IntentId OperationResolution) (operation : ResolvedOperation) :
    Except SemanticRefusal (Table IntentId OperationResolution) := do
  match operation.resolution with
  | .refused reason => refuseIf (reason.utf8ByteSize > maxResolutionReasonBytes) .resolutionReasonTooLarge
  | .contributing => throw .nonCanonicalOperationOrder
  | _ => pure ()
  refuseIf (resolved[operation.intentId]?.isSome) (.duplicateOperation operation.intentId)
  pure (resolved.insert operation.intentId operation.resolution)

def resolvedOperations (resolved : List ResolvedOperation) :
    Except SemanticRefusal (Table IntentId OperationResolution) :=
  resolved.foldlM resolveOne ∅

def nextMaterializationId (highWater : Option MaterializationId) : Except SemanticRefusal MaterializationId :=
  if highWater.getD 0 + 1 > u64Max then throw .materializationIdExhausted else pure (highWater.getD 0 + 1)

/-- The operations are listed by ascending intent, the generation is the last one and stands on them. -/
def validResourceState (state : SemanticResourceState) : Bool :=
  !state.operations.isEmpty && decide ((memberIds state.operations).Pairwise (· < ·)) &&
    state.generation.all (fun generation => generation.members.all (· ∈ memberIds state.operations) &&
      state.lastMaterializationId = some generation.materialization.materializationId) &&
    validSourceEvent state.sourceRevision.evidence state.source &&
    (state.sourceRevision.evidence.qualified ≠ .unresolved || state.generation.isNone ||
      state.operations.all (·.sourceRequirement.isCapabilityDefault))

section

variable [ProgramDigest]

def newGeneration (coordinate : Coordinate) (candidate : MaterializationCandidate) (sourceRevision : SourceRevision)
    (previous : Option SemanticGeneration) (operations : List SemanticOperation)
    (highWater : Option MaterializationId) : Except SemanticRefusal SemanticGeneration := do
  refuseIf (operations.any (·.sourceRequirement.isAwaiting)) .sourceUnresolved
  validateMaterialized coordinate candidate
  validateExactTimestamp candidate.event.createdAt sourceRevision previous operations
  let materializationId ← nextMaterializationId highWater
  pure
    { materialization := ⟨materializationId, candidate.event.id⟩
      createdAt := candidate.event.createdAt
      members := .ofList (memberIds operations)
      sourceRevision
      programDigest := semanticProgramDigest operations }

section
omit [ProgramDigest]

def retainedGeneration (previous : Option SemanticGeneration) (operations : List SemanticOperation) :
    Option SemanticGeneration :=
  previous.filter fun generation => generation.members.all (· ∈ memberIds operations)

def receiptUpdates (operations : List SemanticOperation) (generation : Option SemanticGeneration)
    (resolved : Table IntentId OperationResolution) : List SemanticReceiptUpdate :=
  operations.map (fun operation => ⟨operation.intentId, .contributing,
      generation.bind fun generation =>
        if operation.intentId ∈ generation.members then some generation.materialization else none⟩) ++
    resolved.toList.map fun entry => ⟨entry.1, entry.2, none⟩

def firstRevision (previous : Option SemanticResourceState) (source : SourceEvidence) :
    Except SemanticRefusal SourceRevision :=
  match previous with
  | none => pure (.initial source)
  | some state => state.sourceRevision.reconcile source

def acceptedRequirement (accept : SemanticAccept) : Except SemanticRefusal OperationSourceRequirement :=
  if accept.startingSource.source = .capabilityDefault then
    if accept.source.qualified ≠ .unresolved then throw .invalidSourceRevision
    else pure (.capabilityDefault accept.startingSource)
  else if sourceQualifies accept.startingSource accept.source then pure (.qualified accept.startingSource)
  else pure (.awaiting accept.startingSource)

def acceptGeneration (accept : SemanticAccept) (previous : Option SemanticGeneration)
    (highWater : Option MaterializationId) (sourceRevision : SourceRevision) (operations : List SemanticOperation)
    (intentId : IntentId) (acceptedAt : Nat) : Except SemanticRefusal (Option SemanticGeneration) :=
  match accept.materialized with
  | none => pure (retainedGeneration previous operations)
  | some candidate => do
    refuseIf (candidate.event.tags.expiration.any (· ≤ acceptedAt)) .materializationExpired
    refuseIf ((Std.ExtTreeSet.ofList (accept.contributingOperations ++ [intentId])) ≠ .ofList (memberIds operations))
      .materializationMembershipMismatch
    let generation ← newGeneration accept.coordinate candidate sourceRevision previous operations highWater
    pure (some generation)

def transition (previous : Option SemanticResourceState) (next : Option SemanticResourceState)
    (operations : List SemanticOperation) (resolved : Table IntentId OperationResolution)
    (generation : Option SemanticGeneration) (last : Option MaterializationId)
    (candidate : Option MaterializationCandidate) : SemanticTransitionPlan where
  previous := previous
  next := next
  receiptUpdates := receiptUpdates operations generation resolved
  materializationHighWater := last
  candidate := candidate
  removedGeneration := (previous.bind (·.generation)).filter fun old => generation ≠ some old

end

def planAccept (previous : Option SemanticResourceState) (highWater : Option MaterializationId) (intentId : IntentId)
    (acceptedAt : Nat) (accept : SemanticAccept) : Except SemanticRefusal SemanticTransitionPlan := do
  validateCoordinate accept.coordinate
  refuseIf (accept.startingSource.plan ≠ accept.source.plan ∨ accept.startingSource.access ≠ accept.source.access)
    .incompatibleReplayProgram
  validateSourceEvent accept.source accept.sourceEvent
  refuseIf (previous.any fun state => !validResourceState state) .invalidSourceRevision
  refuseIf (accept.expectedSourceRevision ≠ previous.map (·.sourceRevision) ∨
      accept.expectedProgramDigest ≠ previous.map (fun state => semanticProgramDigest state.operations) ∨
      accept.expectedCurrentMaterialization ≠
        (previous.bind (·.generation)).map (·.materialization.materializationId)) .invalidSourceRevision
  refuseIf (previous.any fun state => state.lastMaterializationId ≠ highWater) .invalidSourceRevision
  let listed := previous.elim [] (·.operations)
  refuseIf (listed.head?.any fun existing =>
      existing.program ≠ accept.program || existing.format ≠ accept.format ||
      existing.sourceRequirement.requirement.plan ≠ accept.startingSource.plan ||
      existing.sourceRequirement.requirement.access ≠ accept.startingSource.access) .incompatibleReplayProgram
  let sourceRevision ← firstRevision previous accept.source
  let resolved ← resolvedOperations accept.resolvedOperations
  validateResolutionPartition listed accept.contributingOperations resolved.keys
  let sourceRequirement ← acceptedRequirement accept
  let operations := qualifyOperations
    (listed.filter (fun operation => (resolved[operation.intentId]?).isNone) ++
      [⟨intentId, accept.program, accept.format, sourceRequirement, acceptedAt, accept.plan⟩]) accept.source
  refuseIf (operations.length > maxContributingOperations) .tooManyContributingOperations
  let generation ← acceptGeneration accept (previous.bind (·.generation)) highWater sourceRevision operations intentId
    acceptedAt
  let last := (generation.map (·.materialization.materializationId)).or highWater
  let source := ((previous.bind (·.source)).toList ++ accept.sourceEvent.toList).find?
    fun source => validSourceEvent sourceRevision.evidence (some source)
  pure (transition previous (some ⟨accept.coordinate, sourceRevision, operations, source, last, generation⟩)
    operations resolved generation last accept.materialized)

def rematerializedGeneration (remat : SemanticRematerialize) (previous : SemanticResourceState)
    (sourceRevision : SourceRevision) (operations : List SemanticOperation) :
    Except SemanticRefusal (Option SemanticGeneration) :=
  match operations.isEmpty, remat.materialized with
  | true, none => pure none
  | false, none => pure (retainedGeneration previous.generation operations)
  | false, some candidate => do
    refuseIf (candidate.event.tags.expiration.any (· ≤ remat.evaluatedAt)) .materializationExpired
    refuseIf (remat.source.qualified = .unresolved) .sourceUnresolved
    let generation ← newGeneration remat.coordinate candidate sourceRevision previous.generation operations
      previous.lastMaterializationId
    pure (some generation)
  | true, some _ => throw .materializationMembershipMismatch

def planRematerialize (previous : SemanticResourceState) (remat : SemanticRematerialize) :
    Except SemanticRefusal SemanticTransitionPlan := do
  validateCoordinate remat.coordinate
  refuseIf (previous.coordinate ≠ remat.coordinate ∨ previous.sourceRevision ≠ remat.expectedSourceRevision ∨
      semanticProgramDigest previous.operations ≠ remat.expectedProgramDigest ∨
      previous.generation.map (·.materialization.materializationId) ≠ remat.expectedCurrentMaterialization)
    .invalidSourceRevision
  refuseIf (previous.operations.head?.any fun operation =>
      operation.sourceRequirement.requirement.plan ≠ remat.source.plan ||
      operation.sourceRequirement.requirement.access ≠ remat.source.access) .incompatibleReplayProgram
  let sourceRevision ← previous.sourceRevision.reconcile remat.source
  let resolved ← resolvedOperations remat.resolvedOperations
  validateResolutionPartition previous.operations remat.contributingOperations resolved.keys
  let operations := qualifyOperations
    (previous.operations.filter fun operation => (resolved[operation.intentId]?).isNone) remat.source
  refuseIf (operations ≠ [] ∧
      Std.ExtTreeSet.ofList remat.contributingOperations ≠ .ofList (memberIds operations))
    .materializationMembershipMismatch
  let generation ← rematerializedGeneration remat previous sourceRevision operations
  let last := (generation.map (·.materialization.materializationId)).or previous.lastMaterializationId
  let next : Option SemanticResourceState := if operations = [] then none else
    some ⟨remat.coordinate, sourceRevision, operations, previous.source, last, generation⟩
  pure (transition (some previous) next operations resolved generation last remat.materialized)

def advances (source : Event) : QualifiedSource → Bool
  | .unresolved => true
  | .event eventId createdAt =>
    createdAt < source.createdAt || (source.createdAt = createdAt && source.id < eventId)

def planSourceInstall (previous : SemanticResourceState) (install : SemanticSourceInstall) :
    Except SemanticRefusal SemanticTransitionPlan := do
  validateSourceEvent install.successor.source (some install.source)
  refuseIf ((matchesCoordinate install.source.event install.successor.coordinate &&
      install.successor.source.qualified = .event install.source.event.id install.source.event.createdAt) = false)
    .invalidSourceRevision
  refuseIf (advances install.source.event previous.sourceRevision.evidence.qualified = false) .invalidSourceRevision
  let plan ← planRematerialize previous install.successor
  pure { plan with next := plan.next.map fun next => { next with source := some install.source } }

end

end NmpStore.Semantic
