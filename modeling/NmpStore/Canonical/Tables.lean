import NmpStore.Canonical.Relays
import NmpStore.Postings.Catalog

/-! # The canonical event tables

One surrogate key owns the columns of an event: its bytes, the local origin and the relay observations.
-/

namespace NmpStore

open Postings (Packed PostingsBatch PendingEvent)

abbrev IntentId := Nat

inductive SigState where
  | pending
  | signed
  deriving DecidableEq

structure LocalOrigin where
  owners : ExtTreeSet IntentId
  sigState : SigState
  deriving DecidableEq

structure Provenance where
  seen : Table RelayUrl Nat := ∅
  localOrigin : Option LocalOrigin := none
  deriving DecidableEq

structure StoredEvent where
  event : Event
  provenance : Provenance
  deriving DecidableEq

structure EventTables where
  rows : Table EventKey Event := ∅
  locals : Table EventKey LocalOrigin := ∅
  observations : Observations := {}
  eventIds : Table EventId EventKey := ∅
  nextEventKey : Nat := 1
  addrIndex : Table RedbKey EventKey := ∅
  expirationIndex : Table (Nat × EventId) EventKey := ∅
  packed : Packed := {}
  /-- What the open transaction will publish. -/
  batch : PostingsBatch := {}

def beBytes : Nat → Nat → Bytes
  | 0, _ => []
  | width + 1, n => beBytes width (n / 256) ++ [UInt8.ofNat n]

def nibble (byte : UInt8) : Option UInt8 :=
  if 48 ≤ byte ∧ byte ≤ 57 then some (byte - 48)
  else if 97 ≤ byte ∧ byte ≤ 102 then some (byte - 97 + 10)
  else none

def decodeHexPairs : Bytes → Option Bytes
  | high :: low :: rest => do
    let h ← nibble high
    let l ← nibble low
    let raw ← decodeHexPairs rest
    pure ((h * 16 + l) :: raw)
  | [] => some []
  | [_] => none

def decodeHex32 (value : Bytes) : Option Bytes :=
  if value.length ≠ 64 then none else decodeHexPairs value

def tagIndexPrefix (tag : UInt8) (value : Bytes) : Bytes :=
  match decodeHex32 value with
  | some raw => tag :: 1 :: raw
  | none => tag :: 0 :: (beBytes 4 value.length ++ value)

def byAuthorPrefix (author : PublicKey) : Bytes := beBytes 32 author

def byKindPrefix (kind : Nat) : Bytes := beBytes 2 kind

def prepare (event : Event) (eventKey : EventKey) : PendingEvent where
  event := ⟨event.createdAt, event.id, eventKey⟩
  author := byAuthorPrefix event.pubkey
  kind := byKindPrefix event.kind
  tags := (Std.ExtTreeSet.ofList (event.tags.single.map fun tag => tagIndexPrefix tag.1 tag.2) compare).toList

namespace EventTables

variable (t : EventTables) (key : EventKey)

def loadByKey : Result (Option StoredEvent) :=
  match t.rows[key]? with
  | none => pure none
  | some event => do
    let seen ← t.observations.loadSeen key
    pure (some ⟨event, ⟨seen, t.locals[key]?⟩⟩)

def loadById (id : EventId) : Result (Option (EventKey × StoredEvent)) :=
  match t.eventIds[id]? with
  | none => pure none
  | some key => do
    let stored ← loadByKey t key
    pure (stored.map fun stored => (key, stored))

variable (event : Event)

def replaceEvent : EventTables :=
  { t with rows := t.rows.insert key event }

def replaceLocal : Option LocalOrigin → EventTables
  | some origin => { t with locals := t.locals.insert key origin }
  | none => { t with locals := t.locals.erase key }

def mergeObservation (relay : RelayUrl) (time : Nat) :
    Result (Bool × EventTables) := do
  let (grew, observations) ← t.observations.mergeObservation key relay time
  pure (grew, { t with observations })

variable (provenance : Provenance)

def replaceProvenance :
    Result EventTables := do
  let observations ← t.observations.replaceSeen key provenance.seen
  pure (replaceLocal { t with observations } key provenance.localOrigin)

def insertObservation (o : Observations) (entry : RelayUrl × Nat) : Result Observations := do
  let (_, o) ← o.mergeObservation key entry.1 entry.2
  pure o

def insertNew :
    Result (EventKey × EventTables) := do
  let key := t.nextEventKey
  refuseIf (key + 1 > u64Max) ⟨"canonical event key space exhausted"⟩
  let observations ← provenance.seen.toList.foldlM (insertObservation key) t.observations
  pure (key, { t with
    nextEventKey := key + 1
    rows := t.rows.insert key event
    eventIds := t.eventIds.insert event.id key
    locals := match provenance.localOrigin with
      | some origin => t.locals.insert key origin
      | none => t.locals
    observations })

def removeByKey (id : EventId) : Result EventTables := do
  let observations ← t.observations.removeAllObservations key
  pure { t with
    observations
    eventIds := t.eventIds.erase id
    rows := t.rows.erase key
    locals := t.locals.erase key }

def insertIndexes (key : EventKey) : EventTables :=
  { t with batch := t.batch.insert (prepare event key) }

def removeIndexes : EventTables := { t with batch := t.batch.remove key }

def insertRow : Result EventTables := do
  let (key, t) ← insertNew t event provenance
  let t := match addressOf event with
    | some address => { t with addrIndex := t.addrIndex.insert address key }
    | none => t
  let t := insertIndexes t event key
  pure (match event.tags.expiration with
    | some time => { t with expirationIndex := t.expirationIndex.insert (time, event.id) key }
    | none => t)

/-- Drop the row of an id, if there is one that the predicate accepts, with all its index entries. -/
def removeRow (id : EventId) (predicate : StoredEvent → Bool) :
    Result (Option StoredEvent × EventTables) := do
  match ← loadById t id with
  | none => pure (none, t)
  | some (key, stored) =>
    if predicate stored = false then pure (none, t)
    else do
      let t ← removeByKey t key id
      let t := removeIndexes t key
      let t := match addressOf stored.event with
        | some address =>
          if t.addrIndex[address]? = some key then { t with addrIndex := t.addrIndex.erase address } else t
        | none => t
      let t := match stored.event.tags.expiration with
        | some time => { t with expirationIndex := t.expirationIndex.erase (time, id) }
        | none => t
      pure (some stored, t)

def commit [ShardHash] (t : EventTables) : Result EventTables := do
  let observations ← t.observations.flushRelays
  let packed ← Postings.flush t.packed t.batch
  pure { t with observations, packed, batch := {} }

end EventTables

end NmpStore
