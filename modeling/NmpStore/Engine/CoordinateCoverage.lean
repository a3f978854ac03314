import NmpStore.Coverage.Attribution
import NmpStore.Resolver.Grammar

/-! # What open requests prove about a coordinate

Every request that a relay has accepted keeps what the relay has returned under it: the number of frames before the end
of the stored events, and the newest value of each replaceable coordinate that came.
-/

namespace NmpStore.Coordinate

def key (coordinate : Coordinate) : Nat × PublicKey × String := (coordinate.kind, coordinate.publicKey, coordinate.identifier)

theorem key_injective : Function.Injective Coordinate.key := by
  rintro ⟨kn, publicKey, idn⟩ ⟨kn', publicKey', idn'⟩ h
  simpa [Coordinate.key] using h

instance : Ord Coordinate := ⟨compareOn Coordinate.key⟩

instance : TransOrd Coordinate := inferInstanceAs (TransCmp (compareOn Coordinate.key))

instance : LawfulEqOrd Coordinate := Resolver.lawfulEqCmp_compareOn Coordinate.key_injective

end NmpStore.Coordinate

namespace NmpStore.Engine

open Coverage (SubId WireToken)
open Resolver (ConcreteFilter)

/-- The kinds that the event library counts as replaceable: those of the store, and channel metadata. -/
def isReplaceable (kind : Nat) : Bool := isReplaceableKind kind || kind = 41

def eventCoordinate (event : Event) : Option Coordinate :=
  if isAddressableKind event.kind then some ⟨event.kind, event.pubkey, event.tags.identifier.getD ""⟩
  else if isReplaceable event.kind then some ⟨event.kind, event.pubkey, ""⟩
  else none

def dTag : Resolver.IndexedTagName := 100

def utf8 (text : String) : Bytes := text.toUTF8.data.toList

variable (filter : ConcreteFilter)

/-- All events of the coordinate are inside the selection; the window and the limit are not looked at. -/
def selectsCoordinate (coordinate : Coordinate) : Bool :=
  filter.ids.isNone && filter.kinds.all (·.contains coordinate.kind) && filter.authors.all (·.contains coordinate.publicKey) &&
    filter.tags.toList.all fun entry =>
      entry.1 == dTag && isAddressableKind coordinate.kind && entry.2.contains (utf8 coordinate.identifier)

def requestCanWitness : Bool :=
  filter.ids.isNone && filter.until.isNone && filter.tags.keys.all (· == dTag)

inductive CoordinateRequestShape where
  | answerable
  | liveFirstBarrier
  deriving DecidableEq

def coordinateRequestShape (coordinate : Coordinate) : Option CoordinateRequestShape :=
  let addressing :=
    if isAddressableKind coordinate.kind then
      filter.tags.size == 1 && filter.tags.toList.all fun entry => entry.2.size == 1
    else filter.tags.isEmpty
  let exact := selectsCoordinate filter coordinate && addressing && filter.kinds.any (·.size == 1) &&
    filter.authors.any (·.size == 1) && filter.since.isNone && filter.until.isNone
  if exact then some (if filter.limit = some 0 then .liveFirstBarrier else .answerable) else none

def returnedFrameBoundMax : Nat := 500

def witnessLimit : Nat := 500

inductive ReturnedFrames where
  | counted (count : Nat)
  | unattributable
  deriving DecidableEq

namespace ReturnedFrames

def record : ReturnedFrames → ReturnedFrames
  | counted count => counted (min (count + 1) u64Max)
  | unattributable => unattributable

def under (frames : ReturnedFrames) (bound : Nat) : Bool :=
  match frames with
  | counted count => count < bound
  | unattributable => false

end ReturnedFrames

structure WitnessedCoordinate where
  eventId : EventId
  createdAt : Nat
  deriving DecidableEq

structure RequestReturnEvidence where
  storedFrames : ReturnedFrames := .counted 0
  witnessed : Table Coordinate WitnessedCoordinate := ∅

def RequestReturnEvidence.witness (returns : RequestReturnEvidence) (coordinate : Coordinate) (witness : WitnessedCoordinate) :
    RequestReturnEvidence :=
  match returns.witnessed[coordinate]? with
  | some kept =>
    if kept.createdAt < witness.createdAt then { returns with witnessed := returns.witnessed.insert coordinate witness }
    else returns
  | none =>
    if returns.witnessed.size < witnessLimit then { returns with witnessed := returns.witnessed.insert coordinate witness }
    else returns

inductive StoredEvents where
  | streaming (requestRevision : Nat) (committedInterval : Option CoverageInterval)
  | finished (requestRevision : Nat) (committedInterval : Option CoverageInterval)
  deriving DecidableEq

def StoredEvents.isStreaming : StoredEvents → Bool
  | streaming .. => true
  | finished .. => false

structure LiveWireRequest where
  filter : ConcreteFilter
  handle : Nat
  storedEvents : StoredEvents
  returns : RequestReturnEvidence := {}

abbrev RequestKey := RelaySessionKey × SubId

/-- The accepted requests, the wire names of subscriptions, and the requests that are not accepted yet. -/
structure RequestState where
  liveWireRequests : Table RequestKey LiveWireRequest := ∅
  subIdByWire : Table (RelaySessionKey × WireToken) SubId := ∅
  awaiting : List (RequestKey × ConcreteFilter) := []

inductive IngestResult where
  | committed
  | eventCommitFailed
  | projectionFailed
  deriving DecidableEq

/-- How the door for semantic successors treats an event: it lets it pass, it consumes it, or it stores it on its own. -/
inductive SemanticDoor where
  | passes
  | consumes
  | stores (result : IngestResult)
  deriving DecidableEq

structure EventFrame where
  session : RelaySessionKey
  wire : WireToken
  event : Event
  door : SemanticDoor

def returnedFrameBound : Nat := (filter.limit.map (min returnedFrameBoundMax)).getD returnedFrameBoundMax

def provesAbsence (committedInterval : Option CoverageInterval) (frames : ReturnedFrames) : Bool :=
  filter.since.isNone && filter.until.isNone &&
    committedInterval.any fun interval => interval.first == 0 && frames.under (returnedFrameBound filter)

inductive CoordinateCoverage where
  | witnessed (witness : WitnessedCoordinate)
  | provenAbsent
  | inFlight (sub : SubId)
  | reconciling (sub : SubId)
  | uncovered
  deriving DecidableEq

def minSubId (current : Option SubId) (candidate : SubId) : Option SubId :=
  match current with
  | some current => if (compare current candidate).isLE then some current else some candidate
  | none => some candidate

structure Scan where
  absent : Bool := false
  inFlight : Option SubId := none
  reconciling : Option SubId := none

namespace RequestState

variable (s : RequestState)

def mapReturns (change : RequestKey → LiveWireRequest → RequestReturnEvidence) : RequestState :=
  { s with liveWireRequests := s.liveWireRequests.map fun key live => { live with returns := change key live } }

variable (session : RelaySessionKey)

def eraseReturnedFrameCounts : RequestState :=
  s.mapReturns fun key live =>
    if key.1 = session ∧ live.storedEvents.isStreaming then { live.returns with storedFrames := .unattributable } else live.returns

def requestFor (wire : WireToken) : Option (RequestKey × LiveWireRequest) := do
  let sub ← s.subIdByWire[(session, wire)]?
  let live ← s.liveWireRequests[(session, sub)]?
  pure ((session, sub), live)

def recordReturnedEventFrame (wire : WireToken) : RequestState :=
  match s.requestFor session wire with
  | none => s.eraseReturnedFrameCounts session
  | some (key, live) =>
    if live.storedEvents.isStreaming then
      { s with
        liveWireRequests := s.liveWireRequests.insert key
          { live with returns := { live.returns with storedFrames := live.returns.storedFrames.record } } }
    else s

def recordCoordinateWitness (wire : WireToken) (coordinate : Coordinate)
    (witness : WitnessedCoordinate) : RequestState :=
  match s.requestFor session wire with
  | none => s
  | some (key, live) =>
    if requestCanWitness live.filter then
      { s with
        liveWireRequests := s.liveWireRequests.insert key
          { live with returns := live.returns.witness coordinate witness } }
    else s

variable (coordinate : Coordinate)

def scanRequest (session : RelaySessionKey) (scan : Scan) (entry : RequestKey × LiveWireRequest) :
    Except CoordinateCoverage Scan :=
  let live := entry.2
  if entry.1.1 ≠ session ∨ !selectsCoordinate live.filter coordinate then .ok scan
  else
    match if live.filter.until.isNone then live.returns.witnessed[coordinate]? else none with
    | some witness => .error (.witnessed witness)
    | none =>
      match live.storedEvents with
      | .finished _ committedInterval =>
        .ok { scan with absent := scan.absent || provesAbsence live.filter committedInterval live.returns.storedFrames }
      | .streaming .. =>
        match coordinateRequestShape live.filter coordinate with
        | some .answerable => .ok { scan with inFlight := minSubId scan.inFlight entry.1.2 }
        | some .liveFirstBarrier => .ok { scan with reconciling := minSubId scan.reconciling entry.1.2 }
        | none => .ok scan

def awaitingCoordinateRequest (session : RelaySessionKey)
    (shape : CoordinateRequestShape) : Option SubId :=
  s.awaiting.foldl (fun found request =>
    if request.1.1 = session ∧ coordinateRequestShape request.2 coordinate = some shape then minSubId found request.1.2
    else found) none

def coordinateCoverage (session : RelaySessionKey) : CoordinateCoverage :=
  match s.liveWireRequests.toList.foldlM (scanRequest coordinate session) {} with
  | .error answer => answer
  | .ok scan =>
    if scan.absent then .provenAbsent
    else
      match scan.inFlight <|> s.awaitingCoordinateRequest coordinate session .answerable with
      | some sub => .inFlight sub
      | none =>
        match scan.reconciling <|> s.awaitingCoordinateRequest coordinate session .liveFirstBarrier with
        | some sub => .reconciling sub
        | none => .uncovered

variable (key : RequestKey)

def acceptRequest (filter : ConcreteFilter) (handle revision : Nat) : RequestState :=
  { s with liveWireRequests := s.liveWireRequests.insert key { filter, handle, storedEvents := .streaming revision none } }

def modifyStored (change : StoredEvents → StoredEvents) : RequestState :=
  match s.liveWireRequests[key]? with
  | none => s
  | some live => { s with liveWireRequests := s.liveWireRequests.insert key { live with storedEvents := change live.storedEvents } }

def commitInterval (revision : Nat) (interval : Option CoverageInterval) : RequestState :=
  s.modifyStored key fun
    | .streaming live committed => if live = revision then .streaming live interval else .streaming live committed
    | stored => stored

def finishStoredEvents (revision : Nat) : RequestState :=
  s.modifyStored key fun
    | .streaming live committed => if live = revision then .finished live committed else .streaming live committed
    | stored => stored

def retainRequests (keep : RequestKey → LiveWireRequest → Bool) : RequestState :=
  { s with liveWireRequests := s.liveWireRequests.filter keep }

def closeRequestsForSession (handle : Nat) : RequestState :=
  s.retainRequests fun key live => key.1 ≠ session ∨ live.handle ≠ handle

def closeRequestsForSub (handle : Nat) : RequestState :=
  s.retainRequests fun other live => other ≠ key ∨ live.handle ≠ handle

def abandonSub (sub : SubId) : RequestState := s.retainRequests fun key _ => key ≠ (sub.session, sub)

def abandonSessionSubs : RequestState :=
  s.retainRequests fun key _ => key.1 ≠ session

def recordWitness (frame : EventFrame) : RequestState :=
  match eventCoordinate frame.event with
  | none => s
  | some coordinate => s.recordCoordinateWitness frame.session frame.wire coordinate ⟨frame.event.id, frame.event.createdAt⟩

variable (frames : List EventFrame) (result : IngestResult)

def ingestOrdinary : RequestState :=
  if result = .committed then frames.foldl recordWitness s else s

def installSemanticSourceSuccessor (frame : EventFrame) : RequestState :=
  match frame.door with
  | .stores result => s.ingestOrdinary [frame] result
  | _ => s

def ingestRelayObservations : RequestState :=
  (frames.foldl installSemanticSourceSuccessor s).ingestOrdinary (frames.filter fun frame => frame.door = .passes) result

/-- A stretch of event frames of a batch: each is counted as it comes, and they are stored together at its end. -/
def onEventFrames : RequestState :=
  (frames.foldl (fun s frame => s.recordReturnedEventFrame frame.session frame.wire) s).ingestRelayObservations frames result

end RequestState

end NmpStore.Engine
