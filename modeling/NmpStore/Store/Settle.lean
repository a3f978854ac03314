import NmpStore.Store.WriteOps

/-! # Signing and compensating an intent

A signature goes to the row or the stash that holds the draft, and from there to every owner.
-/

namespace NmpStore

structure VerifiedSignature where
  eventId : EventId
  signature : Signature
  deriving DecidableEq

inductive PromoteOutcome where
  | notFound
  | promoted (row : StoredEvent) (coSigned : List IntentId)

inductive CompensationReason where
  | failure
  | explicitCancellation
  deriving DecidableEq

inductive CompensateOutcome where
  | notFound
  | alreadySigned
  | compensated (restored : Option StoredEvent) (revealed : List StoredEvent)

def ownedBy (stored : StoredEvent) (intentId : IntentId) : Bool :=
  stored.provenance.localOrigin.any (intentId ∈ ·.owners)

def StoredEvent.signWith (stored : StoredEvent) (signed : Event) : StoredEvent :=
  match stored.provenance.localOrigin with
  | some ⟨owners, .pending⟩ => ⟨signed, { stored.provenance with localOrigin := some ⟨owners, .signed⟩ }⟩
  | _ => stored

namespace Store

variable (s : Store) (intentId : IntentId)

def signDraft (signed : Event) : Result (StoredEvent × Store) := do
  match (← s.events.loadById signed.id).filter fun found => ownedBy found.2 intentId with
  | some (key, stored) =>
    let row := stored.signWith signed
    match stored.provenance.localOrigin with
    | some ⟨_, .pending⟩ =>
      pure (row, { s with events := (s.events.replaceEvent key row.event).replaceLocal key row.provenance.localOrigin })
    | _ => pure (row, s)
  | none =>
    match s.queue.findDisplaced signed.id intentId with
    | some (other, stored) =>
      let row := stored.signWith signed
      pure (row, { s with queue := { s.queue with displaced := s.queue.displaced.insert other row } })
    | none =>
      pure (⟨signed, ⟨∅, some ⟨(∅ : ExtTreeSet IntentId).insert intentId, .signed⟩⟩⟩, s)

def promoteSigned [ShardHash] (s : Store) (intentId : IntentId) (verified : VerifiedSignature) :
    Result (PromoteOutcome × Store) :=
  match s.queue.intents[intentId]?.bind IntentRecord.event with
  | none => pure (.notFound, s)
  | some (frozen, sigState) =>
    if verified.eventId ≠ frozen.id then
      throw ⟨s!"promotion evidence verifies event {verified.eventId} but intent {intentId} froze event {frozen.id}"⟩
    else if sigState = .signed then pure (.notFound, s)
    else do
      let (row, s) ← s.signDraft intentId { frozen with sig := verified.signature }
      let (transitioned, s) ← s.fanOutSigned (ownersOf row.provenance.localOrigin) row.event
      let s ← s.commit
      pure (.promoted row (transitioned.filter (· ≠ intentId)), s)

def shouldRetract (stored : StoredEvent) (origin : LocalOrigin) : Bool :=
  origin.owners.isEmpty && origin.sigState = .pending && stored.provenance.seen.isEmpty

def disown (frozenId : EventId) : Result Store := do
  match (← s.events.loadById frozenId).filter fun found => ownedBy found.2 intentId with
  | some (key, stored) =>
    let origin : LocalOrigin := ⟨(ownersOf stored.provenance.localOrigin).erase intentId,
      (stored.provenance.localOrigin.map LocalOrigin.sigState).getD .signed⟩
    if shouldRetract stored origin then
      let (_, events) ← s.events.removeRow frozenId fun _ => true
      pure { s with events }
    else pure { s with events := s.events.replaceLocal key (some origin) }
  | none =>
    match s.queue.findDisplaced frozenId intentId with
    | none => pure s
    | some (other, stored) =>
      match stored.provenance.localOrigin with
      | none => throw ⟨s!"displaced event for intent {intentId} lost local ownership"⟩
      | some known =>
        let origin : LocalOrigin := ⟨known.owners.erase intentId, known.sigState⟩
        if shouldRetract stored origin then
          pure { s with queue := { s.queue with displaced := s.queue.displaced.erase other } }
        else
          let row := { stored with provenance := { stored.provenance with localOrigin := some origin } }
          pure { s with queue := { s.queue with displaced := s.queue.displaced.insert other row } }

def restoreDisplaced : Result (Option StoredEvent × Store) := do
  let displaced := s.queue.displaced[intentId]?
  let s := { s with queue := { s.queue with
    intents := s.queue.intents.erase intentId
    displaced := s.queue.displaced.erase intentId } }
  match displaced with
  | none => pure (none, s)
  | some stored => s.reinsertStashed stored

def claimTarget : SuppressClaim → Result (Option EventId)
  | .id target _ => pure (some target)
  | .addr key _ _ =>
    match s.events.addrIndex[key]? with
    | none => pure none
    | some eventKey => do
      let stored ← s.events.loadByKey eventKey
      pure (stored.map fun stored => stored.event.id)

def releaseClaims : Result (List StoredEvent × Store) := do
  let claims := s.queue.kind5Claims[intentId]?.getD []
  let targets ← claims.mapM s.claimTarget
  let rows ← targets.reduceOption.eraseDups.mapM s.events.loadById
  let released := { s with queue := s.queue.dropClaims intentId }
  let revealed := (rows.reduceOption.map Prod.snd).filter fun stored =>
    s.queue.isSuppressed stored.event && !released.queue.isSuppressed stored.event
  pure (revealed, released)

def compensateWrite [ShardHash] (s : Store) (intentId : IntentId) (reason : CompensationReason) (now : Nat) :
    Result (CompensateOutcome × Store) :=
  match s.queue.intents[intentId]? with
  | none => pure (.notFound, s)
  | some record =>
    match record.event with
    | none => pure (.notFound, s)
    | some (frozen, sigState) =>
      if sigState = .signed then pure (.alreadySigned, s)
      else do
        let s ← s.disown intentId frozen.id
        let (restored, s) ← s.restoreDisplaced intentId
        let (revealed, s) ← s.releaseClaims intentId
        let queue ← s.queue.updateReceipt record.receiptId
          (match reason with
            | .failure => .compensated
            | .explicitCancellation => .cancelled)
        let queue ← queue.markTerminalReceipt record.receiptId now
        let s ← commit { s with queue }
        pure (.compensated restored revealed, s)

end Store

end NmpStore
