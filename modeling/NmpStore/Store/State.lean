import NmpStore.Canonical.Tables
import NmpStore.Coverage.Interval

/-! # The state of the store

Beside the event tables the store keeps permanent tombstones and the publish queue: the journal of
open intents, their receipts, the rows their edits displaced, the suppression claims
of unsigned deletions, and the delivery lanes with their attempts and deadlines; and it keeps the
intervals over which each relay session has been read completely.
-/

namespace NmpStore

structure AddrTombstoneRecord where
  ceiling : Nat
  deletingEventId : EventId
  deletingAuthor : PublicKey
  deriving DecidableEq

structure Tombstones where
  ids : Table (EventId × PublicKey) EventId := ∅
  addrs : Table RedbKey AddrTombstoneRecord := ∅

def Tombstones.refuses (tombstones : Tombstones) (event : Event) : Bool :=
  (tombstones.ids[(event.id, event.pubkey)]?).isSome ||
    match addressOf event with
    | none => false
    | some address => tombstones.addrs[address]?.any fun record => event.createdAt ≤ record.ceiling

inductive IntentSigState where
  | awaitingSigner
  | pending
  | signed
  deriving DecidableEq

structure MaterializationRef where
  materializationId : Nat
  eventId : EventId
  deriving DecidableEq

structure MaterializationRecord where
  current : MaterializationRef
  routing : String
  sigState : IntentSigState
  deriving DecidableEq

inductive IntentWork where
  | event (frozen : Event) (routing : String) (sigState : IntentSigState)
  | replaceableOperation (coordinate : Coordinate) (materialization : Option MaterializationRecord)
  deriving DecidableEq

structure IntentRecord where
  receiptId : Nat
  work : IntentWork
  expectedPubkey : PublicKey
  signingIdentityRef : String
  acceptedAt : Nat
  deriving DecidableEq

def IntentRecord.event (record : IntentRecord) : Option (Event × IntentSigState) :=
  match record.work with
  | .event frozen _ sigState => some (frozen, sigState)
  | .replaceableOperation _ _ => none

inductive RefuseReason where
  | alreadyExpired
  | tombstoned
  deriving DecidableEq

inductive ReceiptState where
  | accepted
  | signed
  | compensated
  | cancelled
  | superseded
  | noDestination
  | refused (reason : RefuseReason)
  deriving DecidableEq

inductive ReplaceableOperationAcceptance where
  | bodyless
  | bodyComplete (eventId : EventId)
  deriving DecidableEq

structure MaterializationReceipt where
  materialization : MaterializationRef
  sigState : IntentSigState
  deriving DecidableEq

inductive ReplaceableOperationReceiptState where
  | contributing (current : Option MaterializationReceipt)
  | settled (materialization : MaterializationRef)
  | resolved
  | cancelled
  | refused (reason : String)
  deriving DecidableEq

inductive ReceiptPayload where
  | event (eventId : EventId) (state : ReceiptState)
  | replaceableOperation (coordinate : Coordinate) (acceptance : ReplaceableOperationAcceptance)
      (state : ReplaceableOperationReceiptState)
  deriving DecidableEq

/-- A retained receipt. `terminal` is the place in the terminal order and the time it was taken. -/
structure ReceiptRecord where
  intentId : Option IntentId
  expectedPubkey : PublicKey
  acceptedAt : Option Nat
  payload : ReceiptPayload
  terminal : Option (Nat × Nat) := none
  deriving DecidableEq

inductive SuppressClaim where
  | id (target : EventId) (claimingAuthor : PublicKey)
  | addr (key : RedbKey) (ceiling : Nat) (deletingAuthor : PublicKey)
  deriving DecidableEq

structure AddrClaimant where
  intentId : IntentId
  ceiling : Nat
  deriving DecidableEq

abbrev QueueRelayId := Nat

inductive TransientCause where
  | interrupted
  | ackTimeout
  | connectionLost
  | relayRateLimited
  | relayError
  | authRequired
  deriving DecidableEq

inductive AuthDenialSource where
  | policy
  | signer
  | relay
  deriving DecidableEq

structure AuthDenial where
  source : AuthDenialSource
  reason : String
  deriving DecidableEq

inductive AttemptOutcome where
  | started
  | acked
  | rejected (reason : String)
  | gaveUp
  deriving DecidableEq

inductive TerminalOutcome where
  | acked
  | rejected (reason : String)
  | gaveUp
  | authDenied (denial : AuthDenial)
  deriving DecidableEq

inductive InFlightPhase where
  | awaitingHandoff
  | awaitingAck (deadline : Nat)
  deriving DecidableEq

inductive LaneState where
  | waitingConnection
  | waitingAuth
  | eligible (since : Nat)
  | inFlight (ordinal : Nat) (phase : InFlightPhase)
  | transient (ordinal eligibleAt : Nat) (cause : TransientCause) (rawReason : Option String)
  | terminal (ordinal : Nat) (outcome : TerminalOutcome)
  deriving DecidableEq

structure Lane where
  eventId : EventId
  revision : Nat
  lastOrdinal : Nat
  state : LaneState
  deriving DecidableEq

inductive DeadlineKind where
  | retryEligible
  | ackTimeout
  deriving DecidableEq

inductive HandoffEvidence where
  | notHandedOff
  | written
  | ambiguous
  deriving DecidableEq

structure AttemptHandoff where
  time : Nat
  result : HandoffEvidence
  deriving DecidableEq

structure AttemptTransient where
  eligibleAt : Nat
  cause : TransientCause
  rawReason : Option String
  deriving DecidableEq

structure AttemptDetails where
  startedAt : Option Nat
  handoff : Option AttemptHandoff
  transient : Option AttemptTransient
  finishedAt : Option Nat
  terminal : Option AttemptOutcome
  deriving DecidableEq

structure Queue where
  intents : Table IntentId IntentRecord := ∅
  receipts : Table Nat ReceiptRecord := ∅
  /-- What the edit of an intent displaced from its address. -/
  displaced : Table IntentId StoredEvent := ∅
  kind5Claims : Table IntentId (List SuppressClaim) := ∅
  suppressIds : Table (EventId × PublicKey) (List IntentId) := ∅
  suppressAddrs : Table RedbKey (List AddrClaimant) := ∅
  nextIntentId : Nat := 1
  nextReceiptId : Nat := 1
  nextTerminalSequence : Nat := 1
  lastTerminalAt : Nat := 0
  attempts : Table (IntentId × QueueRelayId × Nat) (EventId × AttemptOutcome) := ∅
  attemptDetails : Table (IntentId × QueueRelayId × Nat) AttemptDetails := ∅
  lanes : Table (IntentId × QueueRelayId) Lane := ∅
  routeRevisions : Table (IntentId × Nat) (List QueueRelayId) := ∅
  deadlines : Table (Nat × IntentId × QueueRelayId) (Nat × DeadlineKind) := ∅

structure Store where
  events : EventTables := {}
  tombstones : Tombstones := {}
  queue : Queue := {}
  coverage : CoverageTable := ∅

def sentinelSignature : Signature := 0

end NmpStore
