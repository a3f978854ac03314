import NmpStore.Store.State

/-! # Mutations shared by the doors of the store

Every door admits a row by the same rules: the tombstones may refuse it and at an address the newest event wins.
-/

namespace NmpStore

def missingAddrIndexTarget (key : EventKey) : PersistenceError :=
  ⟨s!"address index points at missing canonical event {key}"⟩

namespace EventTables

def loadAt (t : EventTables) (address : RedbKey) : Result (Option (EventKey × StoredEvent)) :=
  match t.addrIndex[address]? with
  | none => pure none
  | some key => do
    match ← t.loadByKey key with
    | none => throw (missingAddrIndexTarget key)
    | some stored => pure (some (key, stored))

def loadRival (t : EventTables) (event : Event) : Result (Option (EventKey × StoredEvent)) :=
  match addressOf event with
  | none => pure none
  | some address => t.loadAt address

inductive Placement where
  | placed (replaced : Option StoredEvent)
  | stale

/-- Store a row of an unknown id unless the row at its address is newer; an older row there makes way. -/
def place (t : EventTables) (event : Event) (provenance : Provenance) : Result (Placement × EventTables) := do
  match ← t.loadRival event with
  | none =>
    let t ← t.insertRow event provenance
    pure (.placed none, t)
  | some (key, current) =>
    if candidateWins event current.event then
      let (gone, t) ← t.removeRow current.event.id fun _ => true
      match gone with
      | none => throw (missingAddrIndexTarget key)
      | some replaced =>
        let t ← t.insertRow event provenance
        pure (.placed (some replaced), t)
    else pure (.stale, t)

end EventTables

namespace Queue

variable (q : Queue)

def allocIntentId : Result (IntentId × Queue) := do
  refuseIf (q.nextIntentId + 1 > u64Max) ⟨"delivery id counter exhausted"⟩
  pure (q.nextIntentId, { q with nextIntentId := q.nextIntentId + 1 })

def allocReceiptId : Result (Nat × Queue) := do
  refuseIf (q.nextReceiptId + 1 > u64Max) ⟨"delivery id counter exhausted"⟩
  refuseIf (q.nextReceiptId ≥ 2 ^ 63) ⟨"durable receipt id namespace exhausted"⟩
  pure (q.nextReceiptId, { q with nextReceiptId := q.nextReceiptId + 1 })

def updateReceipt (receiptId : Nat) (state : ReceiptState) : Result Queue :=
  match q.receipts[receiptId]? with
  | none => throw ⟨s!"missing delivery receipt {receiptId}"⟩
  | some record =>
    match record.payload with
    | .replaceableOperation _ _ _ => throw ⟨"operation receipt cannot take an ordinary delivery state"⟩
    | .event eventId _ =>
      pure { q with receipts := q.receipts.insert receiptId { record with payload := .event eventId state } }

/-- The door of governed ingest refuses what the plain update allows: it never touches a superseded receipt. -/
def updateGovernedReceipt (receiptId : Nat) (state : ReceiptState) : Result Queue :=
  match q.receipts[receiptId]? with
  | none => throw ⟨s!"missing delivery receipt {receiptId}"⟩
  | some record =>
    match record.payload with
    | .replaceableOperation _ _ _ => throw ⟨"operation receipt cannot take an ordinary delivery state"⟩
    | .event eventId current => do
      refuseIf (current = .superseded ∨ state = .superseded)
        ⟨"governed ingest cannot transition superseded receipt evidence"⟩
      pure { q with receipts := q.receipts.insert receiptId { record with payload := .event eventId state } }

def markTerminalReceipt (receiptId observedAt : Nat) : Result Queue :=
  match q.receipts[receiptId]? with
  | none => throw ⟨"terminal receipt is missing"⟩
  | some record =>
    if record.terminal.isSome then pure q
    else do
      let sequence := q.nextTerminalSequence
      refuseIf (sequence + 1 > u64Max) ⟨"delivery id counter exhausted"⟩
      let terminalAt := max observedAt q.lastTerminalAt
      pure { q with
        nextTerminalSequence := sequence + 1
        lastTerminalAt := terminalAt
        receipts := q.receipts.insert receiptId { record with terminal := some (sequence, terminalAt) } }

def addClaimant (key : EventId × PublicKey) (intentId : IntentId) : Queue :=
  let claimants := q.suppressIds[key]?.getD []
  let claimants := if intentId ∈ claimants then claimants else claimants ++ [intentId]
  { q with suppressIds := q.suppressIds.insert key claimants }

def removeClaimant (key : EventId × PublicKey) (intentId : IntentId) : Queue :=
  match q.suppressIds[key]? with
  | none => q
  | some claimants =>
    let rest := claimants.filter (· ≠ intentId)
    if rest.isEmpty then { q with suppressIds := q.suppressIds.erase key }
    else { q with suppressIds := q.suppressIds.insert key rest }

def addAddrClaimant (key : RedbKey) (intentId : IntentId) (ceiling : Nat) : Queue :=
  let claimants := (q.suppressAddrs[key]?.getD []).filter (·.intentId ≠ intentId)
  { q with suppressAddrs := q.suppressAddrs.insert key (claimants ++ [⟨intentId, ceiling⟩]) }

def removeAddrClaimant (key : RedbKey) (intentId : IntentId) : Queue :=
  match q.suppressAddrs[key]? with
  | none => q
  | some claimants =>
    let rest := claimants.filter (·.intentId ≠ intentId)
    if rest.isEmpty then { q with suppressAddrs := q.suppressAddrs.erase key }
    else { q with suppressAddrs := q.suppressAddrs.insert key rest }

def isSuppressed (event : Event) : Bool :=
  (q.suppressIds[(event.id, event.pubkey)]?).isSome ||
    match addressOf event with
    | none => false
    | some address => q.suppressAddrs[address]?.any (·.any fun claimant => event.createdAt ≤ claimant.ceiling)

def removeClaim (intentId : IntentId) (q : Queue) : SuppressClaim → Queue
  | .id target author => q.removeClaimant (target, author) intentId
  | .addr key _ _ => q.removeAddrClaimant key intentId

def dropClaims (intentId : IntentId) : Queue :=
  match q.kind5Claims[intentId]? with
  | none => q
  | some claims => claims.foldl (removeClaim intentId) { q with kind5Claims := q.kind5Claims.erase intentId }

def findDisplaced (frozenId : EventId) (intentId : IntentId) : Option (IntentId × StoredEvent) :=
  q.displaced.toList.find? fun entry =>
    entry.2.provenance.localOrigin.any (intentId ∈ ·.owners) && entry.2.event.id = frozenId

def findAnyDisplaced (frozenId : EventId) : Option (IntentId × StoredEvent) :=
  q.displaced.toList.find? fun entry => entry.2.event.id = frozenId

end Queue

def Provenance.mergeObservation (provenance : Provenance) (relay : RelayUrl) (time : Nat) : Provenance :=
  match provenance.seen[relay]? with
  | none => { provenance with seen := provenance.seen.insert relay time }
  | some existing => if existing < time then { provenance with seen := provenance.seen.insert relay time } else provenance

def isSigned (origin : Option LocalOrigin) : Bool := origin.all (·.sigState = .signed)

def ownersOf (origin : Option LocalOrigin) : ExtTreeSet IntentId := (origin.map LocalOrigin.owners).getD ∅

namespace Store

variable (s : Store) (deleting : Event)

def deleteId (acc : List StoredEvent × Store) (target : EventId) :
    Result (List StoredEvent × Store) := do
  let (deleted, s) := acc
  let (gone, events) ← s.events.removeRow target fun stored => stored.event.pubkey = deleting.pubkey
  let ids := s.tombstones.ids.insert (target, deleting.pubkey) deleting.id
  pure (deleted ++ gone.toList, { s with events, tombstones := { s.tombstones with ids } })

def raiseCeiling (tombstones : Tombstones) (address : RedbKey) (deleting : Event) : Tombstones :=
  if tombstones.addrs[address]?.all fun record => deleting.createdAt > record.ceiling then
    { tombstones with addrs := tombstones.addrs.insert address ⟨deleting.createdAt, deleting.id, deleting.pubkey⟩ }
  else tombstones

/-- An `a` tag: it counts only for the author's own addresses, and up to the time of the deletion. -/
def deleteCoordinate (acc : List StoredEvent × Store) (coord : Coordinate) :
    Result (List StoredEvent × Store) :=
  let (deleted, s) := acc
  if coord.publicKey ≠ deleting.pubkey then pure (deleted, s)
  else match addressOfCoordinate coord with
    | none => pure (deleted, s)
    | some address => do
      let s := { s with tombstones := raiseCeiling s.tombstones address deleting }
      match ← s.events.loadAt address with
      | none => pure (deleted, s)
      | some (_, current) =>
        let (gone, events) ← s.events.removeRow current.event.id fun stored =>
          stored.event.createdAt ≤ deleting.createdAt
        pure (deleted ++ gone.toList, { s with events })

def processKind5Deletions : Result (List StoredEvent × Store) := do
  let acc ← deleting.tags.eventIds.foldlM (deleteId deleting) ([], s)
  deleting.tags.coordinates.foldlM (deleteCoordinate deleting) acc

/-- Sign the journal of one owner, if it is still unsigned, and let go of what its draft held. -/
def fanOutOwner (canonical : Event) (acc : List IntentId × Store) (owner : IntentId) :
    Result (List IntentId × Store) :=
  let (transitioned, s) := acc
  let q := { s.queue with displaced := s.queue.displaced.erase owner }
  let release (q : Queue) : Queue := if canonical.isDeletion then q.dropClaims owner else q
  match q.intents[owner]? with
  | none => pure (transitioned, { s with queue := release q })
  | some record =>
    match record.work with
    | .replaceableOperation _ _ => pure (transitioned, { s with queue := release q })
    | .event _ routing sigState =>
      if sigState = .signed then pure (transitioned, { s with queue := q })
      else do
        let q := { q with intents := q.intents.insert owner { record with work := .event canonical routing .signed } }
        let q ← q.updateGovernedReceipt record.receiptId .signed
        pure (transitioned ++ [owner], { s with queue := release q })

def fanOutSigned (owners : ExtTreeSet IntentId) (canonical : Event) :
    Result (List IntentId × Store) := do
  let (transitioned, s) ← owners.toList.foldlM (fanOutOwner canonical) ([], s)
  if canonical.isDeletion then
    let (_, s) ← s.processKind5Deletions canonical
    pure (transitioned, s)
  else pure (transitioned, s)

def ownAddresses : List RedbKey :=
  deleting.tags.coordinates.filterMap fun coord =>
    if coord.publicKey ≠ deleting.pubkey then none else addressOfCoordinate coord

def claimsOf : List SuppressClaim :=
  deleting.tags.eventIds.map (fun target => .id target deleting.pubkey) ++
    (ownAddresses deleting).map fun address => .addr address deleting.createdAt deleting.pubkey

def addClaim (intentId : IntentId) (q : Queue) : SuppressClaim → Queue
  | .id target author => q.addClaimant (target, author) intentId
  | .addr key ceiling _ => q.addAddrClaimant key intentId ceiling

def visibleRow (id : EventId) : Result (Option StoredEvent) := do
  let found ← s.events.loadById id
  pure ((found.map Prod.snd).filter fun stored => !s.queue.isSuppressed stored.event)

/-- Stake the claims of an unsigned deletion; the rows that it newly hides are returned with the claims. -/
def processKind5DeletionsProvisional (intentId : IntentId) (deleting : Event) :
    Result (List StoredEvent × List SuppressClaim × Store) := do
  let atAddresses ← (ownAddresses deleting).mapM s.events.loadAt
  let candidates := (deleting.tags.eventIds ++ atAddresses.reduceOption.map (·.2.event.id)).eraseDups
  let visible ← candidates.mapM s.visibleRow
  let claims := claimsOf deleting
  let s := { s with queue := claims.foldl (addClaim intentId) s.queue }
  pure (visible.reduceOption.filter fun stored => s.queue.isSuppressed stored.event, claims, s)

def mergeSeen (existing se : StoredEvent) : Provenance :=
  se.provenance.seen.toList.foldl (fun p entry => Provenance.mergeObservation p entry.1 entry.2) existing.provenance

def adoptsSignature (existing se : StoredEvent) : Bool :=
  !isSigned existing.provenance.localOrigin && se.provenance.localOrigin.any (·.sigState = .signed)

def rejoinsSigned (existing se : StoredEvent) : Bool :=
  se.provenance.localOrigin.any fun stashed => isSigned existing.provenance.localOrigin || stashed.sigState = .signed

def rejoined (existing se : StoredEvent) : StoredEvent where
  event := if adoptsSignature existing se then { existing.event with sig := se.event.sig } else existing.event
  provenance := match se.provenance.localOrigin with
    | none => mergeSeen existing se
    | some stashed =>
      { mergeSeen existing se with localOrigin := some ⟨ownersOf existing.provenance.localOrigin ∪ stashed.owners,
          if rejoinsSigned existing se then .signed else .pending⟩ }

def rejoin (key : EventKey) (existing se : StoredEvent) : Result (Option StoredEvent × Store) := do
  let row := rejoined existing se
  let events := if adoptsSignature existing se then s.events.replaceEvent key row.event else s.events
  let events ← events.replaceProvenance key row.provenance
  if rejoinsSigned existing se then
    let (_, s) ← fanOutSigned { s with events } (ownersOf row.provenance.localOrigin) row.event
    pure (some row, s)
  else pure (some row, { s with events })

def reinsertStashed (se : StoredEvent) : Result (Option StoredEvent × Store) := do
  match ← s.events.loadById se.event.id with
  | some (key, existing) => s.rejoin key existing se
  | none =>
    if s.tombstones.refuses se.event then pure (none, s)
    else do
      let (placement, events) ← s.events.place se.event se.provenance
      match placement with
      | .placed _ => pure (some se, { s with events })
      | .stale => pure (none, { s with events })

end Store

end NmpStore
