import NmpStore.Semantic.Plan

/-! # Applying semantic plans

A plan is applied in one transaction: the generation it drops leaves the event tables, its successor takes the address,
the resource and its high-water mark are rewritten, and every member's journal entry and receipt follow.
-/

namespace NmpStore.Semantic

abbrev CoordinateKey := Nat × PublicKey × String

/-- The store with its semantic resources. The high-water mark of a coordinate outlives its resource. -/
structure SemanticStore where
  store : Store := {}
  resources : Table CoordinateKey SemanticResourceState := ∅
  highWater : Table CoordinateKey MaterializationId := ∅

structure SemanticCurrentState where
  sourceRevision : SourceRevision
  programDigest : SemanticProgramDigest
  generation : Option SemanticGeneration

inductive SemanticInstallOutcome where
  | installed (current : SemanticCurrentState) (installed : StoredEvent) (predecessor : Option StoredEvent)
  | waiting (current : SemanticCurrentState)
  | resolved
  | stale
  | refused (refusal : SemanticRefusal)

variable (coordinate : Coordinate)

def coordinateKeyOf : CoordinateKey :=
  (coordinate.kind, coordinate.publicKey, coordinate.identifier)

def coordinateKey : Result CoordinateKey := do
  refuseIf (validCoordinate coordinate = false) ⟨"invalid replaceable-operation coordinate"⟩
  pure (coordinateKeyOf coordinate)

def SemanticStore.loadResource (w : SemanticStore) (coordinate : Coordinate) :
    Result (Option SemanticResourceState) := do
  let key ← coordinateKey coordinate
  refuseIf (w.resources[key]?.any fun state => !validResourceState state)
    ⟨"invalid active semantic resource state"⟩
  pure w.resources[key]?

structure MemberRecord where
  intent : IntentRecord
  materialization : Option MaterializationRecord
  receipt : ReceiptRecord
  acceptance : ReplaceableOperationAcceptance
  state : ReplaceableOperationReceiptState

def IntentWork.operationAt : IntentWork → Option (Option MaterializationRecord)
  | .replaceableOperation journaled materialization => if journaled = coordinate then some materialization else none
  | .event _ _ _ => none

def ReceiptPayload.operationAt :
    ReceiptPayload → Option (ReplaceableOperationAcceptance × ReplaceableOperationReceiptState)
  | .replaceableOperation filed acceptance state => if filed = coordinate then some (acceptance, state) else none
  | .event _ _ => none

variable (q : Queue)

def loadMember (coordinate : Coordinate) (intentId : IntentId) : Result MemberRecord :=
  match q.intents[intentId]? with
  | none => throw ⟨s!"semantic member intent {intentId} is missing"⟩
  | some intent =>
    match IntentWork.operationAt coordinate intent.work with
    | none => throw ⟨"semantic member journal has wrong work or coordinate"⟩
    | some materialization =>
      match q.receipts[intent.receiptId]? with
      | none => throw ⟨"semantic member receipt is missing"⟩
      | some receipt =>
        match ReceiptPayload.operationAt coordinate receipt.payload with
        | none => throw ⟨"semantic member receipt does not match journal"⟩
        | some (acceptance, state) =>
          if receipt.intentId ≠ some intentId then throw ⟨"semantic member receipt does not match journal"⟩
          else pure ⟨intent, materialization, receipt, acceptance, state⟩

def loadMemberRecords (updates : List SemanticReceiptUpdate) (newIntent : Option IntentId)
    (coordinate : Coordinate) : Result (List (SemanticReceiptUpdate × MemberRecord)) :=
  (updates.filter fun update => some update.intentId ≠ newIntent).mapM fun update => do
    let member ← loadMember q coordinate update.intentId
    pure (update, member)

def receiptState (update : SemanticReceiptUpdate) (materialization : Option MaterializationRecord) :
    ReplaceableOperationReceiptState :=
  match update.resolution with
  | .contributing => .contributing (update.current.bind fun current =>
      (materialization.filter (·.current = current)).map fun record => ⟨record.current, record.sigState⟩)
  | .resolved => .resolved
  | .cancelled => .cancelled
  | .refused reason => .refused reason

/-- What a member works on after the transition: the new generation under its own routing, else what it
worked on before. -/
def chosenMaterialization (update : SemanticReceiptUpdate) (record prior : Option MaterializationRecord) :
    Option MaterializationRecord :=
  ((record.filter fun record => update.current = some record.current).map fun record =>
      ⟨record.current, prior.elim record.routing (·.routing), record.sigState⟩).or
    (prior.filter fun prior => update.current = some prior.current)

def updateMember (record : Option MaterializationRecord) (q : Queue)
    (entry : SemanticReceiptUpdate × MemberRecord) : Queue :=
  let (update, member) := entry
  let chosen := chosenMaterialization update record member.materialization
  let receipts := q.receipts.insert member.intent.receiptId { member.receipt with
    payload := .replaceableOperation coordinate member.acceptance (receiptState update chosen) }
  if update.resolution = .contributing then
    { q with
      receipts
      intents := q.intents.insert update.intentId
        { member.intent with work := .replaceableOperation coordinate chosen } }
  else
    { q with
      receipts
      intents := q.intents.erase update.intentId }

structure NewIntent where
  intentId : IntentId
  receiptId : Nat
  expectedPubkey : PublicKey
  signingIdentityRef : String
  acceptedAt : Nat

def journalOperation (record : Option MaterializationRecord)
    (updates : List SemanticReceiptUpdate) (q : Queue) (new : NewIntent) : Queue :=
  match updates.find? (·.intentId = new.intentId) with
  | none => q
  | some update =>
    let materialization := record.filter fun record => update.current = some record.current
    { q with
      intents := q.intents.insert new.intentId ⟨new.receiptId, .replaceableOperation coordinate materialization,
        new.expectedPubkey, new.signingIdentityRef, new.acceptedAt⟩
      receipts := q.receipts.insert new.receiptId ⟨some new.intentId, new.expectedPubkey, some new.acceptedAt,
        .replaceableOperation coordinate
          (materialization.elim .bodyless fun work => .bodyComplete work.current.eventId)
          (receiptState update materialization), none⟩ }

def predecessorOf (plan : SemanticTransitionPlan) (winner : Option StoredEvent) : Option (Option StoredEvent) :=
  match plan.removedGeneration with
  | some old =>
    match winner with
    | none => none
    | some row =>
      if (row.event.id = old.materialization.eventId ∧ row.provenance.localOrigin.any (·.owners = old.members)) ∨
          (plan.next.bind (·.source)) = some row then some (some row)
      else none
  | none =>
    match plan.candidate, plan.previous.bind (·.generation), plan.next with
    | some _, none, some next =>
      match next.sourceRevision.evidence.qualified, winner with
      | .unresolved, winner =>
        -- a capability default asserts nothing about what it finds
        if next.operations.all (·.sourceRequirement.isCapabilityDefault) then some winner else none
      | .event eventId createdAt, some row =>
        if eventId = row.event.id ∧ createdAt = row.event.createdAt then some (some row) else none
      | .event _ _, none => none
    | _, _, _ => some none

def candidateEvent (candidate : MaterializationCandidate) : Event := { candidate.event with sig := sentinelSignature }

def candidateRefusal (s : Store) (plan : SemanticTransitionPlan) : Option SemanticRefusal :=
  plan.candidate.bind fun candidate =>
    if s.tombstones.refuses (candidateEvent candidate) then some .materializationTombstoned
    else if (s.events.eventIds[candidate.event.id]?).isSome ∧
        plan.removedGeneration.map (·.materialization.eventId) ≠ some candidate.event.id then
      some .materializationEventIdCollision
    else none

def generationProvenance (generation : SemanticGeneration) : Provenance :=
  ⟨∅, some ⟨generation.members, .pending⟩⟩

def dropPredecessor (t : EventTables) (plan : SemanticTransitionPlan) (predecessor : Option StoredEvent) :
    Result EventTables :=
  match predecessor with
  | none => pure t
  | some row =>
    if plan.removedGeneration.isSome || plan.candidate.isSome then do
      let (_, t) ← t.removeRow row.event.id fun _ => true
      pure t
    else pure t

def installRow (t : EventTables) (plan : SemanticTransitionPlan) :
    Result (Option StoredEvent × EventTables) :=
  match plan.candidate, plan.next.bind (·.generation) with
  | some candidate, some generation => do
    let t ← t.insertRow (candidateEvent candidate) (generationProvenance generation)
    pure (some ⟨candidateEvent candidate, generationProvenance generation⟩, t)
  | _, _ => pure (none, t)

def materializationRecord (plan : SemanticTransitionPlan) : Option MaterializationRecord :=
  plan.candidate.bind fun candidate => (plan.next.bind (·.generation)).map fun generation =>
    ⟨generation.materialization, candidate.routing, candidate.sigState.intentSigState⟩

section

variable [ProgramDigest]

def SemanticResourceState.current (state : SemanticResourceState) : SemanticCurrentState :=
  ⟨state.sourceRevision, semanticProgramDigest state.operations, state.generation⟩

def planOutcome (plan : SemanticTransitionPlan) (installed predecessor : Option StoredEvent) : SemanticInstallOutcome :=
  match plan.next, installed with
  | none, _ => .resolved
  | some next, some row => .installed next.current row predecessor
  | some next, none => .waiting next.current

section
omit [ProgramDigest]

def writeQueue (coordinate : Coordinate) (plan : SemanticTransitionPlan) (newIntent : Option NewIntent) (q : Queue)
    (members : List (SemanticReceiptUpdate × MemberRecord)) : Queue :=
  let q := members.foldl (updateMember coordinate (materializationRecord plan)) q
  newIntent.elim q (journalOperation coordinate (materializationRecord plan) plan.receiptUpdates q)

def writeResource (w : SemanticStore) (key : CoordinateKey) (plan : SemanticTransitionPlan) : SemanticStore :=
  { w with
    resources := plan.next.elim (w.resources.erase key) (w.resources.insert key)
    highWater := plan.materializationHighWater.elim w.highWater (w.highWater.insert key) }

end

def applyPlan (w : SemanticStore) (coordinate : Coordinate) (newIntent : Option NewIntent)
    (plan : SemanticTransitionPlan) : Result (SemanticInstallOutcome × SemanticStore) := do
  let members ← loadMemberRecords w.store.queue plan.receiptUpdates (newIntent.map (·.intentId)) coordinate
  let key ← coordinateKey coordinate
  match addressOfCoordinate coordinate with
  | none => throw ⟨"semantic planner validates coordinate"⟩
  | some address =>
    let winner ← w.store.events.loadAt address
    match predecessorOf plan (winner.map Prod.snd) with
    | none => pure (.stale, w)
    | some predecessor =>
      match candidateRefusal w.store plan with
      | some refusal => pure (.refused refusal, w)
      | none =>
        let events ← dropPredecessor w.store.events plan predecessor
        let (installed, events) ← installRow events plan
        let queue := writeQueue coordinate plan newIntent w.store.queue members
        pure (planOutcome plan installed predecessor,
          writeResource { w with store := { w.store with events, queue } } key plan)

end

def routedRelays (members : ExtTreeSet IntentId) : ExtTreeSet QueueRelayId :=
  .ofList ((q.routeRevisions.toList.filter fun row => row.1.1 ∈ members).flatMap (·.2))

def dropMemberLanes (eventId : EventId) (q : Queue) (member : IntentId) : Result Queue := do
  let q := q.clearIntentDeadlines member
  let rows := q.lanes.toList.filter (·.1.1 = member)
  refuseIf (rows.any (·.2.eventId ≠ eventId)) ⟨"successor predecessor lane does not name the prior generation"⟩
  pure { q with lanes := q.lanes.eraseAll (rows.map (·.1)) }

def openLane (before : Queue) (owner : IntentId) (eventId : EventId) (dropped : Bool) (q : Queue)
    (relay : QueueRelayId) : Result Queue := do
  let old := if dropped then before.lanes[(owner, relay)]? else none
  let revision := old.elim 0 (·.revision)
  refuseIf (revision + 1 > u64Max) ⟨"delivery lane revision exhausted"⟩
  pure { q with
    lanes := q.lanes.insert (owner, relay) ⟨eventId, revision + 1, old.elim 0 (·.lastOrdinal), .waitingConnection⟩ }

def lastRouteOrdinal (owner : IntentId) : Nat :=
  ((q.routeRevisions.toList.filter (·.1.1 = owner)).map (·.1.2)).foldl max 0

/-- Replace the lanes of a generation by one lane per relay, owned by the lowest member of its successor. -/
def installSuccessorDeliveryLanes (previous next : SemanticGeneration) : Result Queue :=
  match next.members.min? with
  | none => throw ⟨"semantic generation has no delivery owner"⟩
  | some owner => do
    let relays := routedRelays q next.members
    let dropped ← previous.members.toList.foldlM (dropMemberLanes previous.materialization.eventId) q
    if relays.isEmpty then pure dropped
    else do
      let ordinal := lastRouteOrdinal dropped owner + 1
      refuseIf (ordinal > u64Max) ⟨"route revision ordinal exhausted"⟩
      let routed := { dropped with
        routeRevisions := dropped.routeRevisions.insert (owner, ordinal) relays.toList }
      relays.toList.foldlM
        (openLane q owner next.materialization.eventId (owner ∈ previous.members)) routed

def moveLanes (w : SemanticStore) (plan : SemanticTransitionPlan) : Result SemanticStore :=
  match plan.removedGeneration, plan.next.bind (·.generation) with
  | some previous, some next => do
    let queue ← installSuccessorDeliveryLanes w.store.queue previous next
    pure { w with store := { w.store with queue } }
  | _, _ => pure w

inductive SemanticAcceptOutcome where
  | refused (refusal : SemanticRefusal)
  | accepted (intentId : IntentId) (receiptId : Nat) (current : SemanticCurrentState) (installed predecessor : Option StoredEvent)

inductive SemanticCohortCloseOutcome where
  | closed (members : List IntentId)
  | destinationOpen
  | stale

inductive SemanticDestinationPlanClosure where
  | noDestinations
  | allCurrentDestinationsTerminal
  deriving DecidableEq

structure SemanticCohortClose where
  coordinate : Coordinate
  expectedSourceRevision : SourceRevision
  expectedProgramDigest : SemanticProgramDigest
  expectedMaterialization : MaterializationRef
  destination : SemanticDestinationPlanClosure

inductive SemanticPromoteOutcome where
  | stale
  | promoted (row : StoredEvent) (members : List IntentId)

namespace SemanticStore

variable [ProgramDigest] [ShardHash] (w : SemanticStore)

def commit : Result SemanticStore := do
  let store ← w.store.commit
  pure { w with store }

def accept (expectedPubkey : PublicKey) (signingIdentityRef : String) (acceptedAt : Nat)
    (accept : SemanticAccept) : Result (SemanticAcceptOutcome × SemanticStore) :=
  if expectedPubkey ≠ accept.coordinate.publicKey then pure (.refused .invalidCoordinate, w)
  else do
    let previous ← w.loadResource accept.coordinate
    let key ← coordinateKey accept.coordinate
    let (intentId, queue) ← w.store.queue.allocIntentId
    let (receiptId, queue) ← queue.allocReceiptId
    match planAccept previous w.highWater[key]? intentId acceptedAt accept with
    | .error refusal => pure (.refused refusal, w)
    | .ok plan =>
      let (outcome, after) ← applyPlan { w with store := { w.store with queue } } accept.coordinate
        (some ⟨intentId, receiptId, expectedPubkey, signingIdentityRef, acceptedAt⟩) plan
      let after ← moveLanes after plan
      match outcome with
      | .stale => pure (.refused .invalidSourceRevision, w)
      | .refused refusal => pure (.refused refusal, w)
      | .resolved => throw ⟨"newly accepted replaceable operation cannot already be resolved"⟩
      | .installed current row predecessor =>
        let after ← after.commit
        pure (.accepted intentId receiptId current (some row) predecessor, after)
      | .waiting current =>
        let after ← after.commit
        pure (.accepted intentId receiptId current none none, after)

def installSource (install : SemanticSourceInstall) :
    Result (SemanticInstallOutcome × SemanticStore) := do
  let previous ← w.loadResource install.successor.coordinate
  match previous with
  | none => pure (.stale, w)
  | some previous =>
    let key ← coordinateKey install.successor.coordinate
    if previous.lastMaterializationId ≠ w.highWater[key]? then
      throw ⟨"semantic materialization high-water diverged from resource"⟩
    else
      match planSourceInstall previous install with
      | .error .invalidSourceRevision => pure (.stale, w)
      | .error refusal => pure (.refused refusal, w)
      | .ok plan =>
        let (outcome, after) ← applyPlan w install.successor.coordinate none plan
        let after ← moveLanes after plan
        match outcome with
        | .stale => pure (.stale, w)
        | .refused refusal => pure (.refused refusal, w)
        | outcome =>
          let after ← after.commit
          pure (outcome, after)

section
omit [ProgramDigest] [ShardHash]

/-- The receipt of a member that still waits for the signature of exactly this materialization. -/
def awaitsSignature (materialization : MaterializationRef) (intentId : IntentId) (member : MemberRecord) : Bool :=
  member.receipt.intentId = some intentId && member.receipt.expectedPubkey = member.intent.expectedPubkey &&
    member.receipt.acceptedAt = some member.intent.acceptedAt &&
    match member.state with
    | .contributing (some current) => current.materialization = materialization && current.sigState ≠ .signed
    | _ => false

def waitingMembers (q : Queue) (coordinate : Coordinate) (materialization : MaterializationRef) :
    List IntentId → Result (Option (List (IntentId × MemberRecord)))
  | [] => pure (some [])
  | intentId :: rest =>
    match q.intents[intentId]? with
    | none => throw ⟨"materialization member missing"⟩
    | some intent =>
      match IntentWork.operationAt coordinate intent.work with
      | none => pure none
      | some work =>
        if !work.any (fun work => work.current = materialization && work.sigState ≠ .signed) then pure none
        else
          match q.receipts[intent.receiptId]? with
          | none => throw ⟨"materialization receipt missing"⟩
          | some receipt =>
            match ReceiptPayload.operationAt coordinate receipt.payload with
            | none => pure none
            | some (acceptance, state) =>
              let member : MemberRecord := ⟨intent, work, receipt, acceptance, state⟩
              if awaitsSignature materialization intentId member then do
                let members ← waitingMembers q coordinate materialization rest
                pure (members.map ((intentId, member) :: ·))
              else pure none

def signMember (coordinate : Coordinate) (q : Queue) (entry : IntentId × MemberRecord) : Queue :=
  let (intentId, member) := entry
  let work := member.materialization.map fun work => { work with sigState := .signed }
  { q with
    intents := q.intents.insert intentId { member.intent with work := .replaceableOperation coordinate work }
    receipts := q.receipts.insert member.intent.receiptId { member.receipt with
      payload := .replaceableOperation coordinate member.acceptance
        (.contributing (work.map fun work => ⟨work.current, .signed⟩)) } }

def promote (w : SemanticStore) (coordinate : Coordinate) (expectedSourceRevision : SourceRevision)
    (expectedProgramDigest : SemanticProgramDigest) (expectedMaterialization : MaterializationId)
    (expectedEventId : EventId) (verified : VerifiedSignature) :
    Result (SemanticPromoteOutcome × SemanticStore) := do
  refuseIf (verified.eventId ≠ expectedEventId)
    ⟨s!"promotion evidence verifies {verified.eventId} but materialization expects {expectedEventId}"⟩
  let resource ← w.loadResource coordinate
  match resource.bind fun resource => resource.generation.map fun generation => (resource, generation) with
  | none => pure (.stale, w)
  | some (resource, generation) =>
    if resource.sourceRevision ≠ expectedSourceRevision ∨
        semanticProgramDigest resource.operations ≠ expectedProgramDigest ∨
        generation.materialization ≠ ⟨expectedMaterialization, expectedEventId⟩ ∨
        generation.sourceRevision ≠ expectedSourceRevision ∨ generation.programDigest ≠ expectedProgramDigest then
      pure (.stale, w)
    else
      match addressOfCoordinate coordinate with
      | none => throw ⟨"persisted semantic coordinate is valid"⟩
      | some address =>
        let found ← w.store.events.loadAt address
        match found with
        | none => pure (.stale, w)
        | some (key, row) =>
          if row.event.id ≠ expectedEventId then pure (.stale, w)
          else match row.provenance.localOrigin with
            | none => throw ⟨"current materialization canonical row is not local"⟩
            | some origin =>
              if origin.owners ≠ generation.members ∨ origin.sigState = .signed then pure (.stale, w)
              else if row.event.sig ≠ sentinelSignature then
                throw ⟨"pending materialization carries a non-sentinel signature"⟩
              else do
                let members ← waitingMembers w.store.queue coordinate generation.materialization
                  generation.members.toList
                match members with
                | none => pure (.stale, w)
                | some members =>
                  let event := { row.event with sig := verified.signature }
                  let signed : LocalOrigin := ⟨origin.owners, .signed⟩
                  let events := (w.store.events.replaceEvent key event).replaceLocal key (some signed)
                  let queue := members.foldl (signMember coordinate) w.store.queue
                  let after ← commit { w with store := { w.store with events, queue } }
                  pure (.promoted ⟨event, ⟨row.provenance.seen, some signed⟩⟩ generation.members.toList, after)

/-- Whether the destinations of a generation are as settled as the caller says. Only the lowest member may
own lanes and routes, and every lane must be terminal. -/
def destinationsClosed (q : Queue) (generation : SemanticGeneration) (owner : IntentId)
    (destination : SemanticDestinationPlanClosure) : Bool :=
  let lanes := q.lanes.toList.filter (·.1.1 ∈ generation.members)
  let routes := q.routeRevisions.toList.filter (·.1.1 ∈ generation.members)
  lanes.all (fun row => row.1.1 = owner && row.2.eventId = generation.materialization.eventId &&
      match row.2.state with
      | .terminal _ _ => true
      | _ => false) &&
    routes.all (·.1.1 = owner) &&
    match destination with
    | .noDestinations => lanes.isEmpty && routes.isEmpty
    | .allCurrentDestinationsTerminal => !lanes.isEmpty && !routes.isEmpty

inductive ClosingMember where
  | ready (member : MemberRecord)
  | stale
  | destinationOpen

def closingMember (q : Queue) (coordinate : Coordinate) (materialization : MaterializationRef) (intentId : IntentId) :
    Result ClosingMember :=
  match q.intents[intentId]? with
  | none => throw ⟨"semantic close member missing"⟩
  | some intent =>
    match IntentWork.operationAt coordinate intent.work with
    | some (some work) =>
      if work.current ≠ materialization ∨ work.sigState ≠ .signed then pure .destinationOpen
      else
        match q.receipts[intent.receiptId]? with
        | none => throw ⟨"semantic close receipt missing"⟩
        | some receipt =>
          match ReceiptPayload.operationAt coordinate receipt.payload with
          | some (acceptance, .contributing (some current)) =>
            if receipt.intentId = some intentId ∧ current.materialization = materialization ∧
                current.sigState = .signed then
              pure (.ready ⟨intent, some work, receipt, acceptance, .contributing (some current)⟩)
            else pure .destinationOpen
          | _ => pure .destinationOpen
    | _ => pure .stale

def closingMembers (q : Queue) (coordinate : Coordinate) (materialization : MaterializationRef) :
    List IntentId → Result (Except SemanticCohortCloseOutcome (List (IntentId × MemberRecord)))
  | [] => pure (.ok [])
  | intentId :: rest => do
    let verdict ← closingMember q coordinate materialization intentId
    match verdict with
    | .stale => pure (.error .stale)
    | .destinationOpen => pure (.error .destinationOpen)
    | .ready member => do
      let members ← closingMembers q coordinate materialization rest
      pure (members.map ((intentId, member) :: ·))

def settleMember (coordinate : Coordinate) (materialization : MaterializationRef) (now : Nat) (q : Queue)
    (entry : IntentId × MemberRecord) : Result Queue := do
  let (intentId, member) := entry
  let q := q.clearIntentDeadlines intentId
  let q := { q with
    intents := q.intents.erase intentId
    receipts := q.receipts.insert member.intent.receiptId { member.receipt with
      payload := .replaceableOperation coordinate member.acceptance (.settled materialization) } }
  q.markTerminalReceipt member.intent.receiptId now

end

def closeCohort (close : SemanticCohortClose) (now : Nat) :
    Result (SemanticCohortCloseOutcome × SemanticStore) := do
  let resource ← w.loadResource close.coordinate
  match resource with
  | none => pure (.stale, w)
  | some state =>
    if state.sourceRevision ≠ close.expectedSourceRevision ∨
        semanticProgramDigest state.operations ≠ close.expectedProgramDigest then pure (.stale, w)
    else match state.generation with
      | none => pure (.destinationOpen, w)
      | some generation =>
        if generation.materialization ≠ close.expectedMaterialization ∨
            generation.sourceRevision ≠ close.expectedSourceRevision ∨
            generation.programDigest ≠ close.expectedProgramDigest ∨
            generation.members ≠ .ofList (memberIds state.operations) then pure (.stale, w)
        else match generation.members.min? with
          | none => throw ⟨"semantic close generation has no members"⟩
          | some owner =>
            if !destinationsClosed w.store.queue generation owner close.destination then pure (.destinationOpen, w)
            else do
              let verdict ← closingMembers w.store.queue close.coordinate generation.materialization
                generation.members.toList
              match verdict with
              | .error outcome => pure (outcome, w)
              | .ok members =>
                let queue ← members.foldlM (settleMember close.coordinate generation.materialization now) w.store.queue
                let after ← commit { w with
                  store := { w.store with queue }
                  resources := w.resources.erase (coordinateKeyOf close.coordinate) }
                pure (.closed generation.members.toList, after)

end SemanticStore

end NmpStore.Semantic
