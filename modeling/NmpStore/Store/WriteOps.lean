import NmpStore.Store.Ingest

/-! # Local writes

An accepted draft is stored unsigned and journaled as an intent.
-/

namespace NmpStore

def handoffMayHaveOccurred (handoff : Option AttemptHandoff) : Bool :=
  !handoff.any (·.result = .notHandedOff)

def laneStateDeadline : LaneState → Option (Nat × DeadlineKind)
  | .transient _ eligibleAt _ _ => some (eligibleAt, .retryEligible)
  | .inFlight _ (.awaitingAck deadline) => some (deadline, .ackTimeout)
  | _ => none

structure RetiredIntent where
  intentId : IntentId
  receiptId : Nat
  handoffMayHaveOccurred : Bool
  deriving DecidableEq

namespace Queue

variable (q : Queue)

def intentDeadlineKeys (intentId : IntentId) : List (Nat × IntentId × QueueRelayId) :=
  q.lanes.toList.filterMap fun row =>
    if row.1.1 = intentId then (laneStateDeadline row.2.state).map fun deadline => (deadline.1, intentId, row.1.2) else none

def clearIntentDeadlines (intentId : IntentId) : Queue :=
  { q with deadlines := q.deadlines.eraseAll (q.intentDeadlineKeys intentId) }

/-- Whether bytes of the intent may have left: by its attempts if it has any, else by a started lane. -/
def retainSafetyReceipt (owner : IntentId) : Bool :=
  let attempts := q.attempts.keys.filter (·.1 = owner)
  let details := q.attemptDetails.toList.filter (·.1.1 = owner)
  if !attempts.isEmpty || !details.isEmpty then
    attempts.any (fun key => handoffMayHaveOccurred (q.attemptDetails[key]?.bind AttemptDetails.handoff)) ||
      details.any fun row => !attempts.contains row.1 && handoffMayHaveOccurred row.2.handoff
  else q.lanes.toList.any fun row => row.1.1 = owner && row.2.lastOrdinal ≠ 0

def forgetIntent (owner : IntentId) : Queue :=
  let q := q.clearIntentDeadlines owner
  { q with
    displaced := q.displaced.erase owner
    intents := q.intents.erase owner
    attempts := q.attempts.filter fun key _ => key.1 ≠ owner
    attemptDetails := q.attemptDetails.filter fun key _ => key.1 ≠ owner
    lanes := q.lanes.filter fun key _ => key.1 ≠ owner
    routeRevisions := q.routeRevisions.filter fun key _ => key.1 ≠ owner }

def retireOwner (now : Nat) (q : Queue) (retired : RetiredIntent) : Result Queue := do
  let q := q.forgetIntent retired.intentId
  if retired.handoffMayHaveOccurred then
    let q ← q.updateReceipt retired.receiptId .superseded
    q.markTerminalReceipt retired.receiptId now
  else match q.receipts[retired.receiptId]? with
    | none => throw ⟨"open delivery intent must retain its receipt"⟩
    | some _ => pure { q with receipts := q.receipts.erase retired.receiptId }

def eligible (owners : ExtTreeSet IntentId) : List RetiredIntent :=
  owners.toList.filterMap fun owner =>
    q.intents[owner]?.map fun record => ⟨owner, record.receiptId, q.retainSafetyReceipt owner⟩

def withoutOwners (stored : StoredEvent) (retired : List RetiredIntent) : StoredEvent :=
  { stored with provenance := { stored.provenance with
      localOrigin := stored.provenance.localOrigin.map fun origin =>
        { origin with owners := retired.foldl (fun owners retired => owners.erase retired.intentId) origin.owners } } }

def retireSupersededOwners (replaced : StoredEvent) (now : Nat) :
    Result (Option StoredEvent × List RetiredIntent × Queue) := do
  let retired := q.eligible (ownersOf replaced.provenance.localOrigin)
  let q ← retired.foldlM (retireOwner now) q
  pure (if replaced.provenance.seen.isEmpty then none else some (withoutOwners replaced retired), retired, q)

end Queue

structure AcceptWrite where
  frozen : Event
  routing : String
  sigState : IntentSigState
  expectedPubkey : PublicKey
  signingIdentityRef : String
  acceptedAt : Nat

inductive AcceptOutcome where
  | refused (reason : RefuseReason)
  | duplicate (intentId : IntentId) (receiptId : Nat) (row : StoredEvent)
  | kind5Processed (intentId : IntentId) (receiptId : Nat) (row : StoredEvent) (hidden : List StoredEvent)
  | inserted (intentId : IntentId) (receiptId : Nat) (row : StoredEvent)
  | superseded (intentId : IntentId) (receiptId : Nat) (row replaced : StoredEvent) (retired : List RetiredIntent)
  | stale (intentId : IntentId) (receiptId : Nat)

inductive DupLoc where
  | live (key : EventKey)
  | stash (key : IntentId)

namespace Store

def journal (q : Queue) (accept : AcceptWrite) (intentId : IntentId) (receiptId : Nat) (frozen : Event)
    (sigState : IntentSigState) (state : ReceiptState) (displaced : Option StoredEvent) : Queue :=
  { q with
    intents := q.intents.insert intentId ⟨receiptId, .event frozen accept.routing sigState, accept.expectedPubkey,
      accept.signingIdentityRef, accept.acceptedAt⟩
    displaced := match displaced with
      | some displaced => q.displaced.insert intentId displaced
      | none => q.displaced
    receipts := q.receipts.insert receiptId
      ⟨some intentId, accept.expectedPubkey, some accept.acceptedAt, .event frozen.id state, none⟩ }

variable (s : Store)

def stakeClaims (intentId : IntentId) (deleting : Event) : Result (List StoredEvent × Store) := do
  let (hidden, claims, s) ← s.processKind5DeletionsProvisional intentId deleting
  pure (hidden, { s with queue := { s.queue with kind5Claims := s.queue.kind5Claims.insert intentId claims } })

def join (loc : DupLoc) (existing : StoredEvent) (origin : LocalOrigin) : Store :=
  match loc with
  | .live key => { s with events := s.events.replaceLocal key (some origin) }
  | .stash key =>
    let row := { existing with provenance := { existing.provenance with localOrigin := some origin } }
    { s with queue := { s.queue with displaced := s.queue.displaced.insert key row } }

variable (accept : AcceptWrite)

def acceptDuplicate (loc : DupLoc) (existing : StoredEvent) :
    Result (AcceptOutcome × Store) := do
  let (intentId, queue) ← s.queue.allocIntentId
  let (receiptId, queue) ← queue.allocReceiptId
  let known := existing.provenance.localOrigin
  let origin : LocalOrigin := ⟨(ownersOf known).insert intentId, (known.map LocalOrigin.sigState).getD .signed⟩
  let row : StoredEvent := ⟨existing.event, { existing.provenance with localOrigin := some origin }⟩
  let s := join { s with queue } loc existing origin
  if isSigned known then
    -- nothing is left to sign: the journal takes over the signed bytes
    pure (.duplicate intentId receiptId row,
      { s with queue := journal s.queue accept intentId receiptId row.event .signed .signed none })
  else
    let (_, s) ← if accept.frozen.isDeletion then s.stakeClaims intentId accept.frozen else pure ([], s)
    pure (.duplicate intentId receiptId row,
      { s with queue := journal s.queue accept intentId receiptId accept.frozen accept.sigState .accepted none })

def acceptNew (now : Nat) : Result (AcceptOutcome × Store) := do
  let (intentId, queue) ← s.queue.allocIntentId
  let (receiptId, queue) ← queue.allocReceiptId
  let origin : LocalOrigin := ⟨(∅ : ExtTreeSet IntentId).insert intentId, .pending⟩
  let stored : StoredEvent := ⟨accept.frozen, ⟨∅, some origin⟩⟩
  let (placement, events) ← s.events.place accept.frozen stored.provenance
  let s := { s with events, queue }
  let file (q : Queue) (displaced : Option StoredEvent) : Queue :=
    journal q accept intentId receiptId accept.frozen accept.sigState .accepted displaced
  match placement with
  | .stale => pure (.stale intentId receiptId, { s with queue := file s.queue none })
  | .placed (some replaced) =>
    let (displaced, retired, queue) ← s.queue.retireSupersededOwners replaced now
    pure (.superseded intentId receiptId stored replaced retired, { s with queue := file queue displaced })
  | .placed none =>
    if accept.frozen.isDeletion then
      let (hidden, s) ← s.stakeClaims intentId accept.frozen
      pure (.kind5Processed intentId receiptId stored hidden, { s with queue := file s.queue none })
    else pure (.inserted intentId receiptId stored, { s with queue := file s.queue none })

def findDuplicate (id : EventId) : Result (Option (DupLoc × StoredEvent)) := do
  match ← s.events.loadById id with
  | some (key, stored) => pure (some (.live key, stored))
  | none => pure ((s.queue.findAnyDisplaced id).map fun found => (.stash found.1, found.2))

def acceptWithTables (now : Nat) : Result (AcceptOutcome × Store) := do
  match ← s.findDuplicate accept.frozen.id with
  | some (loc, existing) => s.acceptDuplicate accept loc existing
  | none =>
    if s.tombstones.refuses accept.frozen then pure (.refused .tombstoned, s)
    else s.acceptNew accept now

def acceptWrite [ShardHash] (s : Store) (accept : AcceptWrite) (now : Nat) :
    Result (AcceptOutcome × Store) :=
  if accept.frozen.isExpiredAt accept.acceptedAt then pure (.refused .alreadyExpired, s)
  else do
    let (outcome, s) ← s.acceptWithTables accept now
    let s ← s.commit
    pure (outcome, s)

end Store

end NmpStore
