import NmpStore.Store.Mutation

/-! # The door for relays

A delivered event merges into the row of its id, and signs it if that was a local draft.
-/

namespace NmpStore

structure RelayObserved where
  relay : RelayUrl
  time : Nat
  deriving DecidableEq

abbrev Delivery := Event × RelayObserved

inductive InsertOutcome where
  | refused (reason : RefuseReason)
  | duplicate (provenanceGrew : Bool) (satisfiedIntents : List IntentId) (locallyAccepted : Bool)
  | inserted
  | superseded (replaced : StoredEvent)
  | stale
  | kind5Processed (deleted : List StoredEvent)

namespace Store

variable (s : Store)

def mergeDuplicate (key : EventKey) (event : Event) (source : RelayObserved) :
    Result (InsertOutcome × Store) := do
  let origin := s.events.locals[key]?
  let (grew, events) ← s.events.mergeObservation key source.relay source.time
  match origin with
  | some ⟨owners, .pending⟩ =>
    -- the relay brings the signature that the draft was waiting for
    let events := (events.replaceEvent key event).replaceLocal key (some ⟨owners, .signed⟩)
    let (satisfied, s) ← fanOutSigned { s with events } owners event
    pure (.duplicate grew satisfied true, s)
  | _ => pure (.duplicate grew [] origin.isSome, { s with events })

def insertWithTables (event : Event) (source : RelayObserved) :
    Result (InsertOutcome × Store) :=
  if event.isExpiredAt source.time then pure (.refused .alreadyExpired, s)
  else match s.events.eventIds[event.id]? with
    | some key => s.mergeDuplicate key event source
    | none =>
      if s.tombstones.refuses event then pure (.refused .tombstoned, s)
      else do
        let (placement, events) ← s.events.place event ⟨(∅ : Table RelayUrl Nat).insert source.relay source.time, none⟩
        let s := { s with events }
        match placement with
        | .stale => pure (.stale, s)
        | .placed (some replaced) => pure (.superseded replaced, s)
        | .placed none =>
          if event.isDeletion then do
            let (deleted, s) ← s.processKind5Deletions event
            pure (.kind5Processed deleted, s)
          else pure (.inserted, s)

def commit [ShardHash] (s : Store) : Result Store := do
  let events ← s.events.commit
  pure { s with events }

def insertStep (acc : List InsertOutcome × Store) (delivery : Delivery) :
    Result (List InsertOutcome × Store) := do
  let (outcome, s) ← acc.2.insertWithTables delivery.1 delivery.2
  pure (acc.1 ++ [outcome], s)

def insertBatch [ShardHash] (s : Store) (deliveries : List Delivery) :
    Result (List InsertOutcome × Store) :=
  if deliveries.isEmpty then pure ([], s)
  else do
    let (outcomes, s) ← deliveries.foldlM insertStep ([], s)
    let s ← s.commit
    pure (outcomes, s)

def insert [ShardHash] (s : Store) (event : Event) (source : RelayObserved) :
    Result (InsertOutcome × Store) := do
  let (outcome, s) ← s.insertWithTables event source
  let s ← s.commit
  pure (outcome, s)

end Store

end NmpStore
