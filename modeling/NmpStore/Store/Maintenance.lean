import NmpStore.Store.Ingest

/-! # Removing rows by id, by time and by demand, and recording coverage -/

namespace NmpStore

namespace Store

variable [ShardHash] (s : Store)

def remove (id : EventId) : Result (Option StoredEvent × Store) := do
  let (gone, events) ← s.events.removeRow id fun _ => true
  let s ← commit { s with events }
  pure (gone, s)

def expireKey (acc : List StoredEvent × EventTables) (key : EventKey) :
    Result (List StoredEvent × EventTables) := do
  let (removed, t) := acc
  match ← t.loadByKey key with
  | none => pure (removed, t)
  | some stored =>
    let (gone, t) ← t.removeRow stored.event.id fun _ => true
    pure (removed ++ gone.toList, t)

def expireDue (now : Nat) : Result (List StoredEvent × Store) := do
  let due := (s.events.expirationIndex.toList.filter fun entry => entry.1.1 ≤ now).map Prod.snd
  let (removed, events) ← due.foldlM expireKey ([], s.events)
  let s ← commit { s with events }
  pure (removed, s)

def isVictim (claimed : Event → Bool) (entry : EventKey × Event) : Bool :=
  (addressOf entry.2).isNone && !(s.events.locals[entry.1]?).any (·.sigState = .pending) &&
    !s.queue.isSuppressed entry.2 && !claimed entry.2

def evict (t : EventTables) (entry : EventKey × Event) : Result EventTables := do
  let (gone, t) ← t.removeRow entry.2.id fun _ => true
  match gone with
  | none => throw ⟨s!"gc victim {entry.2.id} vanished before its own removal"⟩
  | some _ => pure t

structure GcReport where
  eventsEvicted : Nat
  coverageRowsShrunk : Nat
  coverageRowsDeleted : Nat
  deriving DecidableEq

inductive GcFailure where
  | refused (error : PersistenceError)
  | panicked (panic : SlicePanic)
  deriving DecidableEq

def gc (claimed : Event → Bool) : Except GcFailure (GcReport × Store) := do
  let victims := s.events.rows.toList.filter (s.isVictim claimed)
  let events ← (victims.foldlM evict s.events).mapError .refused
  let updates ← (s.coverage.collectUpdates (.new (victims.map (·.2)))).mapError .panicked
  let coverage := s.coverage.applyUpdates updates
  let s ← (commit { s with events, coverage }).mapError .refused
  pure (⟨victims.length, updates.countP (·.2.isSome), updates.countP (·.2.isNone)⟩, s)

def recordCoverage (claims : List (CoverageKey × RelaySessionKey × CoverageInterval)) : Store :=
  { s with coverage := s.coverage.record claims }

end Store

end NmpStore
