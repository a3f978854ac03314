import NmpStore.Resolver.Engine

/-! # Relay ingest

A batch of deliveries is committed by the store.
-/

namespace NmpStore.Resolver

structure BatchFacts where
  inserted : List Event := []
  removed : List Event := []
  provenanceGrew : List Event := []
  locallyAccepted : List EventId := []
  satisfiedIntents : List (IntentId × Event) := []
  currentCandidates : List (Option EventId) := []

def BatchFacts.note (facts : BatchFacts) (entry : Event × InsertOutcome) : BatchFacts :=
  let (event, outcome) := entry
  match outcome with
  | .inserted => { facts with
      currentCandidates := facts.currentCandidates ++ [some event.id]
      inserted := facts.inserted ++ [event] }
  | .superseded replaced => { facts with
      currentCandidates := facts.currentCandidates ++ [some event.id]
      inserted := facts.inserted ++ [event]
      removed := facts.removed ++ [replaced.event] }
  | .kind5Processed deleted => { facts with
      currentCandidates := facts.currentCandidates ++ [some event.id]
      inserted := facts.inserted ++ [event]
      removed := facts.removed ++ deleted.map StoredEvent.event }
  | .duplicate grew owners locallyAccepted => { facts with
      currentCandidates := facts.currentCandidates ++ [some event.id]
      locallyAccepted := if grew && locallyAccepted then facts.locallyAccepted ++ [event.id] else facts.locallyAccepted
      provenanceGrew := if grew then facts.provenanceGrew ++ [event] else facts.provenanceGrew
      satisfiedIntents := facts.satisfiedIntents ++ owners.map (·, event) }
  | .stale | .refused _ => { facts with currentCandidates := facts.currentCandidates ++ [none] }

def batchFacts (deliveries : List Delivery) (outcomes : List InsertOutcome) : BatchFacts :=
  ((deliveries.map Prod.fst).zip outcomes).foldl BatchFacts.note {}

structure CommittedCurrentRow where
  event : Event
  observedRelays : ExtTreeSet RelayUrl
  locallyAccepted : Bool
  signatureState : SigState

structure CommittedRowChanges where
  inserted : List CommittedCurrentRow := []
  removed : List Event := []
  provenanceGrew : List CommittedCurrentRow := []

def observedRelays (deliveries : List Delivery) (id : EventId) : ExtTreeSet RelayUrl :=
  .ofList ((deliveries.filter (·.1.id = id)).map (·.2.relay)) compare

def observedEvent (deliveries : List Delivery) (id : EventId) : Option Event :=
  (deliveries.find? (·.1.id = id)).map Prod.fst

/-- The net change: an id that was both inserted and removed is taken for one that came and went. -/
def rowChanges (deliveries : List Delivery) (facts : BatchFacts) : CommittedRowChanges :=
  let insertedIds := facts.inserted.map Event.id
  let removedIds := facts.removed.map Event.id
  let grewIds : ExtTreeSet EventId := .ofList (facts.provenanceGrew.map Event.id) compare
  { inserted := (facts.inserted.filter fun event => event.id ∉ removedIds).map fun event =>
      ⟨event, observedRelays deliveries event.id, false, .signed⟩
    removed := facts.removed.filter fun event => event.id ∉ insertedIds
    provenanceGrew := (grewIds.toList.filter fun id => id ∉ insertedIds ∧ id ∉ removedIds).filterMap fun id =>
      (observedEvent deliveries id).map fun event =>
        ⟨event, observedRelays deliveries id, id ∈ facts.locallyAccepted, .signed⟩ }

inductive RelayIngestError where
  | eventCommit (error : PersistenceError)
  | postCommitProjection (error : PersistenceError)

structure RelayIngestResult where
  delta : DemandDelta
  rowChanges : CommittedRowChanges
  satisfiedIntents : List (IntentId × Event)
  currentAfterCommit : List Bool

/-- A duplicate whose provenance grew can change routing evidence, so it is followed like an insertion. -/
def Engine.ingestFacts [EventText] (e : Engine) (reader : StoreReader) (facts : BatchFacts) :
    Engine × Result DemandDelta :=
  e.react reader (facts.inserted ++ facts.provenanceGrew) facts.removed

/-- The batch is durable before the graph is touched; a failed projection leaves it committed. -/
def ingestObservedDetailed [EventText] [ShardHash] (e : Engine) (s : Store) (reader : Store → StoreReader)
    (deliveries : List Delivery) : Engine × Store × Except RelayIngestError RelayIngestResult :=
  match s.insertBatch deliveries with
  | .error err => (e, s, .error (.eventCommit err))
  | .ok (outcomes, s) =>
    let facts := batchFacts deliveries outcomes
    let removedIds := facts.removed.map Event.id
    match e.ingestFacts (reader s) facts with
    | (e, .error err) => (e, s, .error (.postCommitProjection err))
    | (e, .ok delta) => (e, s, .ok
        { delta
          rowChanges := rowChanges deliveries facts
          satisfiedIntents := facts.satisfiedIntents
          currentAfterCommit := facts.currentCandidates.map fun candidate => candidate.any (· ∉ removedIds) })

end NmpStore.Resolver
