import Mathlib.Data.Finset.Sort
import NmpStore.Coverage.Interval

/-! # Attribution of completed requests

Every request placed on the wire leaves a snapshot of what it proves in the queue of its subscription.
-/

namespace NmpStore.Coverage

abbrev DescriptorHash := Nat

abbrev WireToken := Nat

abbrev SubId := RelayUrl × WireToken × Option PublicKey

namespace SubId

def session (sub : SubId) : RelaySessionKey := (sub.1, sub.2.2)

def wireSubIdString (sub : SubId) : WireToken := sub.2.1

def ofWire (session : RelaySessionKey) (wire : WireToken) : SubId := (session.1, wire, session.2)

@[simp]
theorem ofWire_session_wireSubIdString (sub : SubId) : ofWire sub.session sub.wireSubIdString = sub := rfl

end SubId

structure ConcreteFilter where
  hash : DescriptorHash
  since : Option Nat
  untilTime : Option Nat
  limit : Option Nat
  deriving DecidableEq

inductive CoveragePoison where
  | limitedRequest
  | eventCommitFailed
  deriving DecidableEq

inductive CoverageAuthority where
  | eligible
  | poisoned (reason : CoveragePoison)
  deriving DecidableEq

def CoverageAuthority.poison (authority : CoverageAuthority) (reason : CoveragePoison) : CoverageAuthority :=
  match authority with
  | .eligible => .poisoned reason
  | .poisoned earlier => .poisoned earlier

def CoverageAuthority.refusal : CoverageAuthority → Option CoverageAuthority
  | .eligible => none
  | .poisoned reason => some (.poisoned reason)

structure AttributionSnapshot where
  sendId : Nat
  coverageClaims : Finset CoverageKey
  filterHash : DescriptorHash
  floor : Option Nat
  untilTime : Option Nat
  coverageAuthority : CoverageAuthority
  deriving DecidableEq

def AttributionSnapshot.ofSend (sendId : Nat) (filter : ConcreteFilter) (coverageClaims : Finset CoverageKey) :
    AttributionSnapshot where
  sendId := sendId
  coverageClaims := coverageClaims
  filterHash := filter.hash
  floor := filter.since
  untilTime := filter.untilTime
  coverageAuthority := if filter.limit.isSome then .poisoned .limitedRequest else .eligible

structure CompletedAttribution where
  subId : SubId
  sendId : Nat
  filterHash : DescriptorHash
  coverageAuthority : CoverageAuthority
  claims : List (CoverageKey × CoverageInterval)
  deriving DecidableEq

def CompletedAttribution.intoEligibleClaims (completed : CompletedAttribution) :
    Option (List (CoverageKey × CoverageInterval)) :=
  if completed.coverageAuthority = .eligible then some completed.claims else none

structure AttributionState where
  nextSendId : Nat := 0
  inflight : Table SubId (List AttributionSnapshot) := ∅
  subIdByWire : Table (RelaySessionKey × WireToken) SubId := ∅

namespace Fifo

variable (fifo : List AttributionSnapshot)

def authority : CoverageAuthority :=
  (fifo.findSome? fun snapshot => snapshot.coverageAuthority.refusal).getD .eligible

def attributed : Option (Finset CoverageKey) :=
  fifo.foldl (fun acc snapshot =>
    some (match acc with
      | none => snapshot.coverageClaims
      | some acc => acc ∩ snapshot.coverageClaims)) none

def maxFloor : Nat :=
  fifo.foldl (fun floor snapshot => snapshot.floor.elim floor (max floor)) 0

def minUntil (eoseTime : Nat) : Nat :=
  fifo.foldl (fun time snapshot => snapshot.untilTime.elim time (min time)) eoseTime

def interval (eoseTime : Nat) : CoverageInterval :=
  ⟨maxFloor fifo, min eoseTime (minUntil fifo eoseTime)⟩

def claims (eoseTime : Nat) : List (CoverageKey × CoverageInterval) :=
  ((attributed fifo).elim [] (·.sort (· ≤ ·))).map fun key => (key, interval fifo eoseTime)

end Fifo

namespace AttributionState

variable (state : AttributionState) (sub : SubId)

def fifo : List AttributionSnapshot := (state.inflight[sub]?).getD []

def setFifo (fifo : List AttributionSnapshot) : AttributionState :=
  { state with
    inflight := if fifo = [] then state.inflight.erase sub else state.inflight.insert sub fifo }

variable (session : RelaySessionKey)

def recordSend (sub : SubId) (filter : ConcreteFilter)
    (coverageClaims : Finset CoverageKey) : Nat × AttributionState :=
  (state.nextSendId,
    { nextSendId := (state.nextSendId + 1) % 2 ^ 64
      inflight := state.inflight.insert sub (state.fifo sub ++ [.ofSend state.nextSendId filter coverageClaims])
      subIdByWire := state.subIdByWire.insert (session, sub.wireSubIdString) sub })

variable (filterHash : DescriptorHash)

def modifyCurrent
    (change : Finset CoverageKey → Finset CoverageKey) : Bool × AttributionState :=
  match (state.fifo sub).getLast? with
  | none => (false, state)
  | some current =>
    if current.filterHash = filterHash then
      (true, { state with
        inflight := state.inflight.insert sub
          ((state.fifo sub).dropLast ++ [{ current with coverageClaims := change current.coverageClaims }]) })
    else (false, state)

def extendCurrentSendClaims
    (added : Finset CoverageKey) : Bool × AttributionState :=
  state.modifyCurrent sub filterHash (· ∪ added)

def removeCurrentSendClaims
    (removed : Finset CoverageKey) : Bool × AttributionState :=
  state.modifyCurrent sub filterHash (· \ removed)

def discardSendRevision (revision : Nat) : AttributionState :=
  match state.inflight[sub]? with
  | none => state
  | some fifo =>
    if fifo.any (·.sendId = revision) then state.setFifo sub (fifo.eraseP (·.sendId = revision)) else state

def poisonEventCommitFailure (wire : WireToken) :
    AttributionState :=
  match state.subIdByWire[(session, wire)]? with
  | none => state
  | some sub =>
    match state.inflight[sub]? with
    | none => state
    | some fifo =>
      let targets := fifo.map (·.sendId)
      { state with
        inflight := state.inflight.map fun _ snapshots => snapshots.map fun snapshot =>
          if snapshot.sendId ∈ targets then
            { snapshot with coverageAuthority := snapshot.coverageAuthority.poison .eventCommitFailed }
          else snapshot }

def clearSession : AttributionState :=
  let stale := (state.subIdByWire.toList.filter (·.1.1 = session)).map (·.2)
  { state with
    inflight := state.inflight.eraseAll stale
    subIdByWire := state.subIdByWire.filter fun key _ => key.1 ≠ session }

def discardSub : AttributionState :=
  { state with
    inflight := state.inflight.erase sub
    subIdByWire := state.subIdByWire.erase (sub.session, sub.wireSubIdString) }

/-- The relay reported the end of stored events. The only failure is the panic over an empty queue. -/
def attributeEose (wire : WireToken) (eoseTime : Nat) :
    Except String (Option CompletedAttribution × AttributionState) :=
  match state.subIdByWire[(session, wire)]? with
  | none => .ok (none, state)
  | some sub =>
    match state.inflight[sub]? with
    | none => .ok (none, state)
    | some [] => .error "an in-flight FIFO is removed the moment it empties"
    | some (completed :: rest) =>
      .ok (some
        { subId := sub
          sendId := completed.sendId
          filterHash := completed.filterHash
          coverageAuthority := Fifo.authority (completed :: rest)
          claims := Fifo.claims (completed :: rest) eoseTime },
        state.setFifo sub rest)

end AttributionState

end NmpStore.Coverage
