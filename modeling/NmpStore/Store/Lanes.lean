import NmpStore.Store.WriteOps

/-! # Delivery lanes

An open intent has one lane for each relay it is routed to.
-/

namespace NmpStore

structure LaneKey where
  intentId : IntentId
  eventId : EventId
  relay : QueueRelayId
  deriving DecidableEq

def LaneState.ordinal : LaneState → Option Nat
  | .inFlight ordinal _ | .transient ordinal _ _ _ | .terminal ordinal _ => some ordinal
  | _ => none

def LaneState.isTerminal : LaneState → Bool
  | .terminal _ _ => true
  | _ => false

def TerminalOutcome.fromAttempt : AttemptOutcome → Result TerminalOutcome
  | .started => throw ⟨"Started is not a terminal lane outcome"⟩
  | .acked => pure .acked
  | .rejected reason => pure (.rejected reason)
  | .gaveUp => pure .gaveUp

/-- The codec of the attempt details bounds the reason of a rejection. -/
def AttemptOutcome.encode : AttemptOutcome → Result Unit
  | .rejected reason =>
    refuseIf (reason.utf8ByteSize > 4096) ⟨"decode publish queue attempt details: BoundExceeded(\"rejection reason\")"⟩
  | _ => pure ()

def IntentRecord.currentEventId (record : IntentRecord) : Option EventId :=
  match record.work with
  | .event frozen _ _ => some frozen.id
  | .replaceableOperation _ materialization => materialization.map (·.current.eventId)

def attemptIsLive (outcome : AttemptOutcome) (details : Option AttemptDetails) : Bool :=
  outcome = .started &&
    match details with
    | none => true
    | some details => details.terminal.isNone && details.transient.isNone &&
        !details.handoff.any (·.result = .notHandedOff)

inductive PostHandoffState where
  | waitingConnection
  | awaitingAck (deadline : Nat)
  | transient (eligibleAt : Nat) (cause : TransientCause) (rawReason : Option String)
  | terminal (outcome : AttemptOutcome) (finishedAt : Nat)
  deriving DecidableEq

inductive LaneShape where
  | none
  | allTerminal
  deriving DecidableEq

inductive RemoveQueueEntryOutcome where
  | notFound
  | stillOpen
  | removed
  deriving DecidableEq

structure Deadline where
  instant : Nat
  key : LaneKey
  laneRevision : Nat
  kind : DeadlineKind
  deriving DecidableEq

namespace Queue

variable (q : Queue) (key : LaneKey)

def laneOf : Result Lane :=
  match q.lanes[(key.intentId, key.relay)]? with
  | none => throw ⟨"delivery lane not found"⟩
  | some lane => pure lane

def nextOrdinal (current : Lane) (state : LaneState) : Result Nat :=
  match state.ordinal with
  | none => pure current.lastOrdinal
  | some ordinal => do
    refuseIf (ordinal > min (current.lastOrdinal + 1) u64Max) ⟨"delivery lane state skips an attempt ordinal"⟩
    pure ordinal

variable (intentId : IntentId) (relay : QueueRelayId)

def dropDeadline (state : LaneState) : Queue :=
  match laneStateDeadline state with
  | none => q
  | some (instant, _) => { q with deadlines := q.deadlines.erase (instant, intentId, relay) }

def addDeadline (lane : Lane) : Queue :=
  match laneStateDeadline lane.state with
  | none => q
  | some (instant, kind) => { q with deadlines := q.deadlines.insert (instant, intentId, relay) (lane.revision, kind) }

def putLane (old new : Lane) : Queue :=
  let q := q.dropDeadline intentId relay old.state
  addDeadline { q with lanes := q.lanes.insert (intentId, relay) new } intentId relay new

variable (expectedRevision : Nat)

def replaceLane (state : LaneState) :
    Result (Lane × Queue) := do
  let current ← q.laneOf key
  refuseIf (current.eventId ≠ key.eventId) ⟨"stale delivery lane event"⟩
  refuseIf (current.revision ≠ expectedRevision) ⟨"stale delivery lane revision"⟩
  refuseIf (current.revision + 1 > u64Max) ⟨"delivery lane revision exhausted"⟩
  let lastOrdinal ← nextOrdinal current state
  let lane : Lane := ⟨key.eventId, current.revision + 1, lastOrdinal, state⟩
  pure (lane, q.putLane key.intentId key.relay current lane)

def persistLaneState (state : LaneState) :
    Result (Lane × Queue) :=
  match q.intents[key.intentId]? with
  | none => throw ⟨"lane intent is not open"⟩
  | some intent =>
    match intent.currentEventId with
    | none => throw ⟨"lane intent has no current event"⟩
    | some current => do
      refuseIf (current ≠ key.eventId) ⟨"delivery lane event is not the intent's current event"⟩
      q.replaceLane key expectedRevision state

def waitingState (auth : Bool) : LaneState := if auth then .waitingAuth else .waitingConnection

def setLaneWaiting (auth : Bool) :
    Result (Lane × Queue) :=
  q.persistLaneState key expectedRevision (waitingState auth)

def setLaneEligible (expectedRevision since : Nat) : Result (Lane × Queue) :=
  q.persistLaneState key expectedRevision (.eligible since)

def reasonTooLong (rawReason : Option String) : Bool := rawReason.any (·.utf8ByteSize > 4096)

variable (ordinal : Nat)

def detailsOf : Result AttemptDetails :=
  match q.attemptDetails[(key.intentId, key.relay, ordinal)]? with
  | none => throw ⟨"attempt detail row not found"⟩
  | some details => pure details

variable (details : AttemptDetails)

def putDetails : Queue :=
  { q with attemptDetails := q.attemptDetails.insert (key.intentId, key.relay, ordinal) details }

def recordTransient (transient : AttemptTransient) : Result Queue := do
  let details ← q.detailsOf key ordinal
  pure (q.putDetails key ordinal { details with transient := some transient })

def noteTransient (transient : AttemptTransient) : Result Queue :=
  if ordinal > 0 then q.recordTransient key ordinal transient else pure q

def setLaneTransient (expectedRevision ordinal eligibleAt : Nat) (cause : TransientCause)
    (rawReason : Option String) : Result (Lane × Queue) := do
  refuseIf (reasonTooLong rawReason) ⟨"transient raw reason exceeds 4096 bytes"⟩
  let lane ← q.laneOf key
  refuseIf (lane.eventId ≠ key.eventId ∨ lane.lastOrdinal ≠ ordinal) ⟨"stale attempt ordinal"⟩
  let q ← q.noteTransient key ordinal ⟨eligibleAt, cause, rawReason⟩
  q.replaceLane key expectedRevision (.transient ordinal eligibleAt cause rawReason)

def suspendLaneAttempt (expectedRevision ordinal time : Nat) (cause : TransientCause)
    (rawReason : Option String) (auth : Bool) : Result (Lane × Queue) := do
  refuseIf (reasonTooLong rawReason) ⟨"transient raw reason exceeds 4096 bytes"⟩
  let lane ← q.laneOf key
  refuseIf (lane.eventId ≠ key.eventId ∨ lane.revision ≠ expectedRevision ∨ lane.lastOrdinal ≠ ordinal ∨ ordinal = 0)
    ⟨"stale suspended attempt"⟩
  let q ← q.recordTransient key ordinal ⟨time, cause, rawReason⟩
  q.replaceLane key expectedRevision (waitingState auth)

def isEligible : LaneState → Bool
  | .eligible _ => true
  | _ => false

variable (eventId : EventId)

def beginAttempt (startedAt : Nat) :
    Result (Lane × Queue) := do
  let lane ← q.laneOf key
  refuseIf (lane.eventId ≠ key.eventId ∨ lane.revision ≠ expectedRevision ∨ isEligible lane.state = false)
    ⟨"lane is not expected eligible cursor"⟩
  refuseIf (lane.lastOrdinal + 1 > u64Max) ⟨"attempt ordinal exhausted"⟩
  let ordinal := lane.lastOrdinal + 1
  let q := { q with attempts := q.attempts.insert (key.intentId, key.relay, ordinal) (eventId, .started) }
  let q := q.putDetails key ordinal ⟨some startedAt, none, none, none, none⟩
  q.replaceLane key expectedRevision (.inFlight ordinal .awaitingHandoff)

def awaitsHandoff : LaneState → Bool
  | .inFlight current .awaitingHandoff => current = ordinal
  | _ => false

def mergeHandoff (handoff : AttemptHandoff) : Result AttemptDetails :=
  match details.handoff with
  | none => pure { details with handoff := some handoff }
  | some existing => do
    refuseIf (existing ≠ handoff) ⟨"conflicting handoff evidence"⟩
    pure details

def afterHandoff : PostHandoffState → Result (LaneState × AttemptDetails)
  | .waitingConnection => pure (.waitingConnection, details)
  | .awaitingAck deadline => pure (.inFlight ordinal (.awaitingAck deadline), details)
  | .transient eligibleAt cause rawReason => pure (.transient ordinal eligibleAt cause rawReason, details)
  | .terminal outcome finishedAt => do
    refuseIf (outcome = .started) ⟨"Started is not terminal"⟩
    let terminal ← TerminalOutcome.fromAttempt outcome
    outcome.encode
    pure (.terminal ordinal terminal, { details with finishedAt := some finishedAt, terminal := some outcome })

def PostHandoffState.tooLong : PostHandoffState → Bool
  | .transient _ _ rawReason => reasonTooLong rawReason
  | _ => false

def recordLaneHandoff (expectedRevision ordinal : Nat) (handoff : AttemptHandoff)
    (next : PostHandoffState) : Result (Lane × Queue) := do
  refuseIf (PostHandoffState.tooLong next) ⟨"transient raw reason exceeds 4096 bytes"⟩
  let current ← q.laneOf key
  refuseIf (current.eventId ≠ key.eventId ∨ current.revision ≠ expectedRevision ∨ current.lastOrdinal ≠ ordinal)
    ⟨"stale lane handoff"⟩
  refuseIf (awaitsHandoff ordinal current.state = false) ⟨"lane is not awaiting handoff"⟩
  let details ← q.detailsOf key ordinal
  let details ← mergeHandoff details handoff
  let (state, details) ← afterHandoff ordinal details next
  let (lane, q) ← q.replaceLane key expectedRevision state
  refuseIf (lane.lastOrdinal ≠ ordinal) ⟨"stale lane handoff ordinal"⟩
  pure (lane, q.putDetails key ordinal details)

def finishLaneAttempt (expectedRevision ordinal : Nat) (outcome : AttemptOutcome)
    (finishedAt : Nat) : Result (Lane × Queue) := do
  refuseIf (outcome = .started) ⟨"Started is not terminal"⟩
  let terminal ← TerminalOutcome.fromAttempt outcome
  let current ← q.laneOf key
  refuseIf (current.eventId ≠ key.eventId ∨ current.revision ≠ expectedRevision ∨ current.lastOrdinal ≠ ordinal)
    ⟨"stale terminal attempt"⟩
  let details ← q.detailsOf key ordinal
  match details.terminal with
  | some existing => do
    refuseIf (existing ≠ outcome ∨ details.finishedAt ≠ some finishedAt ∨ current.state ≠ .terminal ordinal terminal)
      ⟨"attempt already has conflicting terminal evidence"⟩
    pure (current, q)
  | none => do
    outcome.encode
    (q.putDetails key ordinal { details with finishedAt := some finishedAt, terminal := some outcome }).replaceLane key
      expectedRevision (.terminal ordinal terminal)

def deniedWith (denial : AuthDenial) : LaneState → Bool
  | .terminal _ (.authDenied existing) => existing = denial
  | _ => false

def denyLaneAuth (denial : AuthDenial) :
    Result (Lane × Queue) := do
  refuseIf (denial.reason.utf8ByteSize > 4096) ⟨"authentication denial reason exceeds 4096 bytes"⟩
  let current ← q.laneOf key
  refuseIf (current.eventId ≠ key.eventId ∨ current.revision ≠ expectedRevision)
    ⟨"authentication denial lane revision is stale"⟩
  if deniedWith denial current.state then pure (current, q)
  else do
    refuseIf (current.state ≠ .waitingAuth) ⟨"lane is not waiting for authentication"⟩
    q.replaceLane key expectedRevision (.terminal current.lastOrdinal (.authDenied denial))

def recordRouteRevision (relays : ExtTreeSet QueueRelayId) : Result Queue :=
  match q.intents[intentId]? with
  | none => throw ⟨"route revision intent is not open"⟩
  | some _ => do
    let last := ((q.routeRevisions.toList.filter (·.1.1 = intentId)).map (·.1.2)).foldl max 0
    refuseIf (last + 1 > u64Max) ⟨"route revision ordinal exhausted"⟩
    pure { q with routeRevisions := q.routeRevisions.insert (intentId, last + 1) relays.toList }

/-- The attempts of a lane at the current event, each with whether it is still live, in the order of their ordinals. -/
def currentAttempts (relay : QueueRelayId) : List Bool :=
  (q.attempts.toList.filter fun row => row.1.1 = intentId && row.1.2.1 = relay && row.2.1 = eventId).map fun row =>
    let details := q.attemptDetails[row.1]?
    attemptIsLive ((details.bind AttemptDetails.terminal).getD row.2.2) details

def contradictory (live : List Bool) : Bool :=
  live.count true > 1 || live.count true = 1 && live.getLast? = some false

def bootstrapLane (q : Queue) (relay : QueueRelayId) : Result Queue := do
  refuseIf (contradictory (q.currentAttempts intentId eventId relay)) ⟨"contradictory live attempt history"⟩
  match q.lanes[(intentId, relay)]? with
  | some existing => do
    refuseIf (existing.eventId ≠ eventId) ⟨"delivery lane belongs to a predecessor event"⟩
    pure q
  | none => pure { q with lanes := q.lanes.insert (intentId, relay) ⟨eventId, 1, 0, .waitingConnection⟩ }

def intentRelays : ExtTreeSet QueueRelayId :=
  .ofList ((q.routeRevisions.toList.filter (·.1.1 = intentId)).flatMap (·.2))

/-- Open the lanes of an intent to every relay that it is routed to and that it has no lane to. -/
def bootstrapLanes : Result Queue :=
  match q.intents[intentId]? with
  | none => throw ⟨"lane bootstrap intent is not open"⟩
  | some intent =>
    match intent.currentEventId with
    | none => throw ⟨"lane bootstrap has no current event"⟩
    | some eventId => (q.intentRelays intentId).toList.foldlM (bootstrapLane intentId eventId) q

def laneStates : List LaneState :=
  (q.lanes.toList.filter (·.1.1 = intentId)).map (·.2.state)

def LaneShape.holds (states : List LaneState) : LaneShape → Bool
  | .none => states.isEmpty
  | .allTerminal => !states.isEmpty && states.all LaneState.isTerminal

def LaneShape.complaint : LaneShape → String
  | .none => "intent still owns lanes"
  | .allTerminal => "intent lanes are not non-empty and terminal"

def explainClose (shape : LaneShape) (receiptId : Nat) : Result Queue :=
  if shape = .none then q.updateReceipt receiptId .noDestination else pure q

/-- Close an intent whose lanes have the shape that is asked for; one that is closed already stays as it is. -/
def closeIntent (shape : LaneShape) (now : Nat) : Result Queue :=
  match q.intents[intentId]? with
  | none => pure q
  | some intent => do
    refuseIf (LaneShape.holds (q.laneStates intentId) shape = false) ⟨LaneShape.complaint shape⟩
    let q ← q.explainClose shape intent.receiptId
    let q := q.clearIntentDeadlines intentId
    { q with intents := q.intents.erase intentId }.markTerminalReceipt intent.receiptId now

def forgetEvidence : Queue :=
  let q := q.clearIntentDeadlines intentId
  { q with
    displaced := q.displaced.erase intentId
    attempts := q.attempts.filter fun key _ => key.1 ≠ intentId
    attemptDetails := q.attemptDetails.filter fun key _ => key.1 ≠ intentId
    lanes := q.lanes.filter fun key _ => key.1 ≠ intentId
    routeRevisions := q.routeRevisions.filter fun key _ => key.1 ≠ intentId }

def removeEntry (receiptId : Nat) : Result (RemoveQueueEntryOutcome × Queue) :=
  match q.receipts[receiptId]? with
  | none => pure (.notFound, q)
  | some receipt =>
    let dropped := { q with receipts := q.receipts.erase receiptId }
    match receipt.intentId with
    | none => pure (.removed, dropped)
    | some intentId =>
      if (q.intents[intentId]?).isSome then pure (.stillOpen, q)
      else do
        refuseIf ((q.kind5Claims[intentId]?).isSome) ⟨"terminal receipt still owns provisional suppression claims"⟩
        pure (.removed, dropped.forgetEvidence intentId)

def checkDeadline (row : (Nat × IntentId × QueueRelayId) × (Nat × DeadlineKind)) :
    Result Deadline :=
  match q.lanes[(row.1.2.1, row.1.2.2)]? with
  | none => throw ⟨"deadline references missing lane"⟩
  | some lane => do
    refuseIf (laneStateDeadline lane.state ≠ some (row.1.1, row.2.2) ∨ lane.revision ≠ row.2.1)
      ⟨"deadline and lane disagree"⟩
    pure ⟨row.1.1, ⟨row.1.2.1, lane.eventId, row.1.2.2⟩, row.2.1, row.2.2⟩

def dueDeadlines (now limit : Nat) : Result (List Deadline) := do
  refuseIf (limit > 1024) ⟨"deadline read limit exceeds 1024"⟩
  ((q.deadlines.toList.filter (·.1.1 ≤ now)).take limit).mapM q.checkDeadline

def nextDeadline : Result (Option Nat) :=
  match q.deadlines.toList.head? with
  | none => pure none
  | some row => do
    let deadline ← q.checkDeadline row
    pure (some deadline.instant)

end Queue

namespace Store

variable [ShardHash]

def attemptEvent (s : Store) (intent : IntentRecord) : Result (Event × IntentSigState) :=
  match intent.work with
  | .event frozen _ sigState => pure (frozen, sigState)
  | .replaceableOperation _ none => throw ⟨"operation intent has no current materialization"⟩
  | .replaceableOperation _ (some materialization) => do
    match ← s.visibleRow materialization.current.eventId with
    | none => throw ⟨"operation materialization event is missing"⟩
    | some stored => pure (stored.event, materialization.sigState)

def startLaneAttempt (s : Store) (key : LaneKey) (expectedRevision : Nat) (event : Event) (startedAt : Nat) :
    Result (Lane × Queue) :=
  match s.queue.intents[key.intentId]? with
  | none => throw ⟨"attempt intent is not open"⟩
  | some intent => do
    let (intentEvent, sigState) ← s.attemptEvent intent
    refuseIf (sigState ≠ .signed ∨ intentEvent ≠ event) ⟨"attempt bytes are not the intent's promoted signed bytes"⟩
    s.queue.beginAttempt key expectedRevision event.id startedAt

end Store

inductive LaneDoor where
  | recordRouteRevision (intentId : IntentId) (relays : ExtTreeSet QueueRelayId)
  | bootstrapLanes (intentId : IntentId)
  | setLaneWaiting (key : LaneKey) (expectedRevision : Nat) (auth : Bool)
  | setLaneEligible (key : LaneKey) (expectedRevision since : Nat)
  | setLaneTransient (key : LaneKey) (expectedRevision ordinal eligibleAt : Nat) (cause : TransientCause)
      (rawReason : Option String)
  | suspendLaneAttempt (key : LaneKey) (expectedRevision ordinal time : Nat) (cause : TransientCause)
      (rawReason : Option String) (auth : Bool)
  | startLaneAttempt (key : LaneKey) (expectedRevision : Nat) (event : Event) (startedAt : Nat)
  | recordLaneHandoff (key : LaneKey) (expectedRevision ordinal : Nat) (handoff : AttemptHandoff) (next : PostHandoffState)
  | finishLaneAttempt (key : LaneKey) (expectedRevision ordinal : Nat) (outcome : AttemptOutcome) (finishedAt : Nat)
  | denyLaneAuth (key : LaneKey) (expectedRevision : Nat) (denial : AuthDenial)
  | closeIntent (intentId : IntentId) (shape : LaneShape) (now : Nat)
  | removeEntry (receiptId : Nat)

def LaneDoor.run [ShardHash] (s : Store) : LaneDoor → Result Queue
  | .recordRouteRevision intentId relays => s.queue.recordRouteRevision intentId relays
  | .bootstrapLanes intentId => s.queue.bootstrapLanes intentId
  | .setLaneWaiting key revision auth => do return (← s.queue.setLaneWaiting key revision auth).2
  | .setLaneEligible key revision since => do return (← s.queue.setLaneEligible key revision since).2
  | .setLaneTransient key revision ordinal eligibleAt cause rawReason => do
    return (← s.queue.setLaneTransient key revision ordinal eligibleAt cause rawReason).2
  | .suspendLaneAttempt key revision ordinal time cause rawReason auth => do
    return (← s.queue.suspendLaneAttempt key revision ordinal time cause rawReason auth).2
  | .startLaneAttempt key revision event startedAt => do return (← s.startLaneAttempt key revision event startedAt).2
  | .recordLaneHandoff key revision ordinal handoff next => do
    return (← s.queue.recordLaneHandoff key revision ordinal handoff next).2
  | .finishLaneAttempt key revision ordinal outcome finishedAt => do
    return (← s.queue.finishLaneAttempt key revision ordinal outcome finishedAt).2
  | .denyLaneAuth key revision denial => do return (← s.queue.denyLaneAuth key revision denial).2
  | .closeIntent intentId shape now => s.queue.closeIntent intentId shape now
  | .removeEntry receiptId => do return (← s.queue.removeEntry receiptId).2

end NmpStore
