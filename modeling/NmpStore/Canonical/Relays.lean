import NmpStore.Lib.Except
import NmpStore.Event

/-! # Relay observations

Which relay showed an event and when is kept by a surrogate relay key.
-/

namespace NmpStore

abbrev RelayKey := Nat

structure Observations where
  observed : Table (EventKey × RelayKey) Nat := ∅
  relays : Table RelayKey (Nat × RelayUrl) := ∅
  relayIds : Table RelayUrl RelayKey := ∅
  nextRelayKey : Nat := 1
  /-- The counts that the open transaction has touched. -/
  relayRefCounts : Table RelayKey Nat := ∅

namespace Observations

variable (o : Observations) (eventKey : EventKey) (relayKey : RelayKey)

def internRelay (relay : RelayUrl) : Result (RelayKey × Observations) :=
  match o.relayIds[relay]? with
  | some existing => pure (existing, o)
  | none => do
    refuseIf (o.nextRelayKey + 1 > u32Max) ⟨"relay key space exhausted"⟩
    pure (o.nextRelayKey, { o with
      nextRelayKey := o.nextRelayKey + 1
      relays := o.relays.insert o.nextRelayKey (0, relay)
      relayIds := o.relayIds.insert relay o.nextRelayKey })

def relayRow : Result (Nat × RelayUrl) :=
  match o.relays[relayKey]? with
  | none => throw ⟨s!"interned relay {relayKey} has no row"⟩
  | some row => pure row

def effectiveRelayRef : Result Nat :=
  match o.relayRefCounts[relayKey]? with
  | some current => pure current
  | none => do
    let (current, _) ← relayRow o relayKey
    pure current

def incrementRelayRef : Result Observations := do
  let current ← effectiveRelayRef o relayKey
  refuseIf (current + 1 > u64Max) ⟨"relay reference count exhausted"⟩
  pure { o with relayRefCounts := o.relayRefCounts.insert relayKey (current + 1) }

def decrementRelayRef : Result Observations := do
  let current ← effectiveRelayRef o relayKey
  refuseIf (current = 0) ⟨"relay reference count underflow"⟩
  pure { o with relayRefCounts := o.relayRefCounts.insert relayKey (current - 1) }

def putObservation (time : Nat) :
    Result Observations := do
  let existing := o.observed[(eventKey, relayKey)]?
  let o := { o with observed := o.observed.insert (eventKey, relayKey) time }
  if existing.isNone then incrementRelayRef o relayKey else pure o

def mergeObservation (relay : RelayUrl) (time : Nat) :
    Result (Bool × Observations) := do
  let (relayKey, o) ← internRelay o relay
  if o.observed[(eventKey, relayKey)]?.any (· ≥ time) then pure (false, o)
  else do
    let o ← putObservation o eventKey relayKey time
    pure (true, o)

def removeObservation :
    Result Observations :=
  match o.observed[(eventKey, relayKey)]? with
  | none => pure o
  | some _ => decrementRelayRef { o with observed := o.observed.erase (eventKey, relayKey) } relayKey

def relayKeys : List RelayKey :=
  (o.observed.toList.filter fun row => row.1.1 = eventKey).map fun row => row.1.2

def removeAllObservations : Result Observations :=
  (relayKeys o eventKey).foldlM (fun o relayKey => removeObservation o eventKey relayKey) o

variable (seen : Table RelayUrl Nat)

def foldSeenAt (relay : RelayUrl) (time : Nat) : Table RelayUrl Nat :=
  match seen[relay]? with
  | none => seen.insert relay time
  | some existing => if time > existing then seen.insert relay time else seen

def loadSeenStep (relayKey : RelayKey) :
    Result (Table RelayUrl Nat) :=
  match o.observed[(eventKey, relayKey)]?, o.relays[relayKey]? with
  | some time, some (_, url) => pure (foldSeenAt seen url time)
  | _, _ => throw ⟨s!"observation for event {eventKey} points at missing relay {relayKey}"⟩

def loadSeen : Result (Table RelayUrl Nat) :=
  (relayKeys o eventKey).foldlM (loadSeenStep o eventKey) ∅

def dropObservation (wanted : Table RelayUrl Nat) (eventKey : EventKey) (o : Observations) (relay : RelayUrl) :
    Result Observations :=
  if (wanted[relay]?).isSome then pure o
  else match o.relayIds[relay]? with
    | none => throw ⟨s!"observed relay {relay} is no longer interned"⟩
    | some relayKey => removeObservation o eventKey relayKey

def replaceObservation (existing : Table RelayUrl Nat) (eventKey : EventKey) (o : Observations)
    (entry : RelayUrl × Nat) : Result Observations :=
  if existing[entry.1]? = some entry.2 then pure o
  else do
    let (relayKey, o) ← internRelay o entry.1
    putObservation o eventKey relayKey entry.2

def replaceSeen :
    Result Observations := do
  let existing ← loadSeen o eventKey
  let o ← existing.keys.foldlM (dropObservation seen eventKey) o
  seen.toList.foldlM (replaceObservation existing eventKey) o

def flushRelay (count : RelayKey × Nat) : Result Observations := do
  let (persisted, url) ← relayRow o count.1
  if count.2 > 0 then
    if count.2 = persisted then pure o
    else pure { o with relays := o.relays.insert count.1 (count.2, url) }
  else pure { o with relays := o.relays.erase count.1, relayIds := o.relayIds.erase url }

def flushRelays : Result Observations :=
  o.relayRefCounts.toList.foldlM flushRelay { o with relayRefCounts := ∅ }

end Observations

end NmpStore
