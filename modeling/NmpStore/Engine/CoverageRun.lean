import NmpStore.Engine.CoordinateCoverage

/-! # Absence is not claimed for a delivered coordinate

Beside the requests a history says which coordinates each of them has been sent since it was accepted.
-/

namespace NmpStore.Engine

open Coverage (SubId WireToken)
open Resolver (ConcreteFilter)

namespace LiveWireRequest

/-- The request can be witnessed at the coordinate, and is. -/
def Remembers (live : LiveWireRequest) (coordinate : Coordinate) : Prop :=
  live.filter.until = none ∧ live.returns.witnessed[coordinate]?.isSome = true

/-- The stored events have ended without the coordinate, as far as the request can tell. -/
def Proves (live : LiveWireRequest) (coordinate : Coordinate) : Prop :=
  selectsCoordinate live.filter coordinate = true ∧ ∃ revision interval, live.storedEvents = .finished revision interval ∧
    provesAbsence live.filter interval live.returns.storedFrames = true

/-- What frames do to a request: they add witnesses, and are counted only before the stored events end. -/
structure Grows (live live' : LiveWireRequest) : Prop where
  filter : live'.filter = live.filter
  storedEvents : live'.storedEvents = live.storedEvents
  counted : live.storedEvents.isStreaming = false → live'.returns.storedFrames = live.returns.storedFrames
  kept : ∀ coordinate : Coordinate, live.returns.witnessed[coordinate]?.isSome → live'.returns.witnessed[coordinate]?.isSome

variable {live live' live'' : LiveWireRequest}

theorem Grows.refl (live : LiveWireRequest) : Grows live live := ⟨rfl, rfl, fun _ => rfl, fun _ h => h⟩

theorem Grows.trans (h : Grows live live') (h' : Grows live' live'') : Grows live live'' where
  filter := h'.filter.trans h.filter
  storedEvents := h'.storedEvents.trans h.storedEvents
  counted hFinished := (h'.counted (h.storedEvents ▸ hFinished)).trans (h.counted hFinished)
  kept coordinate hKept := h'.kept coordinate (h.kept coordinate hKept)

theorem Grows.remembers (h : Grows live live') (hLive : live.Remembers coordinate) : live'.Remembers coordinate :=
  ⟨h.filter ▸ hLive.1, h.kept coordinate hLive.2⟩

theorem Grows.proves (h : Grows live live') (hProves : live'.Proves coordinate) : live.Proves coordinate := by
  obtain ⟨hSelects, revision, interval, hFinished, hAbsence⟩ := hProves
  have hBefore : live.storedEvents = .finished revision interval := h.storedEvents ▸ hFinished
  refine ⟨h.filter ▸ hSelects, revision, interval, hBefore, ?_⟩
  rwa [h.filter, h.counted (by rw [hBefore]; rfl)] at hAbsence

end LiveWireRequest

open LiveWireRequest (Grows)

structure Extends (s s' : RequestState) : Prop where
  wires : s'.subIdByWire = s.subIdByWire
  kept : ∀ (key : RequestKey) live, s.liveWireRequests[key]? = some live →
    ∃ live', s'.liveWireRequests[key]? = some live'
  requests : ∀ (key : RequestKey) (live' : LiveWireRequest), s'.liveWireRequests[key]? = some live' →
    ∃ live, s.liveWireRequests[key]? = some live ∧ Grows live live'

namespace Extends

variable {s s' s'' : RequestState}

theorem refl (s : RequestState) : Extends s s :=
  ⟨rfl, fun _ live h => ⟨live, h⟩, fun _ live h => ⟨live, h, .refl live⟩⟩

theorem trans (h : Extends s s') (h' : Extends s' s'') : Extends s s'' := by
  refine ⟨h'.wires.trans h.wires, fun key live hLive => ?_, fun key live hLive => ?_⟩
  · obtain ⟨live', hLive'⟩ := h.kept key live hLive
    exact h'.kept key live' hLive'
  obtain ⟨middle, hMiddle, hLater⟩ := h'.requests key live hLive
  obtain ⟨first, hFirst, hEarlier⟩ := h.requests key middle hMiddle
  exact ⟨first, hFirst, hEarlier.trans hLater⟩

theorem grows (h : Extends s s') {key : RequestKey} (hLive : s.liveWireRequests[key]? = some live)
    (hLive' : s'.liveWireRequests[key]? = some live') : Grows live live' := by
  obtain ⟨live, hFound, hGrows⟩ := h.requests key live' hLive'
  cases hLive.symm.trans hFound
  exact hGrows

theorem insert (hLive : s.liveWireRequests[key]? = some live) (hGrows : Grows live live') :
    Extends s { s with liveWireRequests := s.liveWireRequests.insert key live' } := by
  refine ⟨rfl, fun other live'' h => ?_, fun other live'' h => ?_⟩
  · simp only [get_insert]
    split
    · exact ⟨live', rfl⟩
    · exact ⟨live'', h⟩
  simp only [get_insert] at h
  split at h
  next hSame =>
    obtain rfl := hSame
    cases h
    exact ⟨live, hLive, hGrows⟩
  · exact ⟨live'', h, .refl live''⟩

theorem foldl {X : Type} {step : RequestState → X → RequestState} (hStep : ∀ s x, Extends s (step s x)) (xs : List X)
    (s : RequestState) : Extends s (xs.foldl step s) := by
  induction xs generalizing s with
  | nil => exact refl s
  | cons x xs ih => exact (hStep s x).trans (ih (step s x))

end Extends

theorem extends_eraseReturnedFrameCounts (s : RequestState) (session : RelaySessionKey) :
    Extends s (s.eraseReturnedFrameCounts session) := by
  refine ⟨rfl, fun key live hLive => ?_, fun key live' hLive' => ?_⟩
  · simp only [RequestState.eraseReturnedFrameCounts, RequestState.mapReturns, getElem?_map, hLive]
    exact ⟨_, rfl⟩
  simp only [RequestState.eraseReturnedFrameCounts, RequestState.mapReturns, getElem?_map] at hLive'
  obtain ⟨live, hLive, rfl⟩ := map_eq_some_iff.mp hLive'
  refine ⟨live, hLive, rfl, rfl, fun hFinished => ?_, fun coordinate hKept => ?_⟩
  · simp [hFinished]
  · dsimp only
    split <;> exact hKept

variable {s : RequestState} {key : RequestKey} {frames : List EventFrame}
  {ents : List (RequestKey × LiveWireRequest)}

theorem requestFor_eq_some : s.requestFor k wire = some (key, live) ↔
      ∃ sb, s.subIdByWire[(k, wire)]? = some sb ∧ key = (k, sb) ∧ s.liveWireRequests[key]? = some live := by
  unfold RequestState.requestFor
  constructor
  · intro h
    obtain ⟨sb, hB, h⟩ := bind_eq_some_iff.mp h
    obtain ⟨live', hL, h⟩ := bind_eq_some_iff.mp h
    cases Option.some.inj h
    exact ⟨sb, hB, rfl, hL⟩
  · rintro ⟨sb, hB, rfl, hL⟩
    rw [hB, Option.bind_eq_bind, bind_some, hL]
    rfl

theorem Extends.requestFor (h : Extends s s') (hFor : s.requestFor session wire = some (key, live)) :
    ∃ live', s'.requestFor session wire = some (key, live') ∧ Grows live live' := by
  obtain ⟨sub, hSub, rfl, hLive⟩ := requestFor_eq_some.mp hFor
  obtain ⟨live', hLive'⟩ := h.kept _ live hLive
  exact ⟨live', requestFor_eq_some.mpr ⟨sub, by rw [h.wires]; exact hSub, rfl, hLive'⟩, h.grows hLive hLive'⟩

theorem extends_recordReturnedEventFrame (s : RequestState) (session : RelaySessionKey) (wire : WireToken) :
    Extends s (s.recordReturnedEventFrame session wire) := by
  unfold RequestState.recordReturnedEventFrame
  split
  · exact extends_eraseReturnedFrameCounts s session
  next key live hFor =>
  obtain ⟨-, -, -, hLive⟩ := requestFor_eq_some.mp hFor
  split
  next hStreaming => exact .insert hLive ⟨rfl, rfl, fun hFinished => by simp [hFinished] at hStreaming, fun _ h => h⟩
  · exact .refl s

section Witness

variable {returns : RequestReturnEvidence}

theorem witness_kept (c : Coordinate) (hI : returns.witnessed[c]?.isSome) :
    (returns.witness co witness).witnessed[c]?.isSome := by
  have hi : (returns.witnessed.insert co witness)[c]?.isSome := by
    rw [get_insert]
    split
    · rfl
    · exact hI
  unfold RequestReturnEvidence.witness
  split
  · split
    · exact hi
    · exact hI
  · split
    · exact hi
    · exact hI

theorem witness_size : (returns.witness co witness).witnessed.size ≤ returns.witnessed.size + 1 := by
  unfold RequestReturnEvidence.witness
  split <;> split <;> first | exact Std.ExtTreeMap.size_insert_le | exact Nat.le_succ _

theorem witness_present (hRoom : returns.witnessed.size < witnessLimit) :
    (returns.witness co witness).witnessed[co]?.isSome := by
  unfold RequestReturnEvidence.witness
  split
  next kept hKept =>
    split
    · rw [get_insert, if_pos rfl]
      rfl
    · rw [hKept]
      rfl
  · rw [if_pos hRoom, get_insert, if_pos rfl]
    rfl

end Witness

theorem extends_recordWitness (s : RequestState) (frame : EventFrame) : Extends s (s.recordWitness frame) := by
  unfold RequestState.recordWitness
  split
  · exact .refl s
  unfold RequestState.recordCoordinateWitness
  split
  · exact .refl s
  next key live hFor =>
  obtain ⟨-, -, -, hLive⟩ := requestFor_eq_some.mp hFor
  split
  · refine .insert hLive ⟨rfl, rfl, fun _ => ?_, witness_kept⟩
    unfold RequestReturnEvidence.witness
    split <;> split <;> rfl
  · exact .refl s

theorem extends_ingestOrdinary (s : RequestState) (frames : List EventFrame) (result : IngestResult) :
    Extends s (s.ingestOrdinary frames result) := by
  unfold RequestState.ingestOrdinary
  split
  · exact .foldl extends_recordWitness frames s
  · exact .refl s

theorem extends_installSemanticSourceSuccessor (s : RequestState) (frame : EventFrame) :
    Extends s (s.installSemanticSourceSuccessor frame) := by
  unfold RequestState.installSemanticSourceSuccessor
  split
  · exact extends_ingestOrdinary s [frame] _
  · exact .refl s

theorem extends_onEventFrames (s : RequestState) (frames : List EventFrame) (result : IngestResult) :
    Extends s (s.onEventFrames frames result) :=
  ((Extends.foldl (fun s frame => extends_recordReturnedEventFrame s frame.session frame.wire) frames s).trans
    (Extends.foldl extends_installSemanticSourceSuccessor frames _)).trans (extends_ingestOrdinary _ _ result)

theorem requestCanWitness_of_selects
    (hS : selectsCoordinate filter co = true) (hU : filter.until = none) : requestCanWitness filter = true := by
  simp only [selectsCoordinate, and_eq_true, all_eq_true] at hS
  obtain ⟨⟨⟨hI, -⟩, -⟩, hT⟩ := hS
  have hK : filter.tags.keys.all (· == dTag) = true := by
    rw [← map_fst_toList_eq_keys, List.all_map]
    exact all_eq_true.mpr fun e hE => (hT e hE).1.1
  rw [requestCanWitness, hI, hU, hK]
  rfl

/-- The request that a frame is addressed to, open or not. -/
def RequestState.addressee (s : RequestState) (frame : EventFrame) : Option RequestKey :=
  s.subIdByWire[(frame.session, frame.wire)]?.map fun sub => (frame.session, sub)

theorem Extends.addressee (h : Extends s s') (frame : EventFrame) : s'.addressee frame = s.addressee frame := by
  rw [RequestState.addressee, RequestState.addressee, h.wires]

theorem addressee_of_requestFor (h : s.requestFor frame.session frame.wire = some (key, live)) :
    s.addressee frame = some key := by
  obtain ⟨sub, hSub, rfl, -⟩ := requestFor_eq_some.mp h
  rw [RequestState.addressee, hSub, map_some]

section Room

/-- A step of a loop over frames that adds at most one witness to a request, and only for a frame of its own that the
step records. -/
structure Records (key : RequestKey) (records : EventFrame → Bool) (step : RequestState → EventFrame → RequestState) :
    Prop where
  grows : ∀ s frame, Extends s (step s frame)
  size : ∀ s frame live live', s.liveWireRequests[key]? = some live → (step s frame).liveWireRequests[key]? = some live' →
    live'.returns.witnessed.size ≤ live.returns.witnessed.size +
      if records frame && decide (s.addressee frame = some key) then 1 else 0

variable {records : EventFrame → Bool} {step : RequestState → EventFrame → RequestState}

theorem Records.foldl_size (h : Records key records step) (frames : List EventFrame) (s : RequestState)
    (hLive : s.liveWireRequests[key]? = some live) (hLive' : (frames.foldl step s).liveWireRequests[key]? = some live') :
    live'.returns.witnessed.size ≤ live.returns.witnessed.size +
      frames.countP fun frame => records frame && decide (s.addressee frame = some key) := by
  induction frames generalizing s live with
  | nil =>
    cases hLive.symm.trans hLive'
    exact Nat.le_add_right _ _
  | cons frame frames ih =>
    obtain ⟨middle, hMiddle⟩ := (h.grows s frame).kept key live hLive
    have hFirst := h.size s frame live middle hLive hMiddle
    have hRest := ih (step s frame) hMiddle hLive'
    simp only [(h.grows s frame).addressee] at hRest
    rw [List.countP_cons]
    omega

/-- A frame that the loop records is remembered by its request when the loop has room for all of the request's. -/
theorem Records.foldl_records (h : Records key records step) (hRecords : records frame = true)
    (hStep : ∀ s, step s frame = s.recordWitness frame) (hCoordinate : eventCoordinate frame.event = some co)
    (hMem : frame ∈ frames) (hFor : s.requestFor frame.session frame.wire = some (key, live))
    (hCan : requestCanWitness live.filter = true)
    (hRoom : live.returns.witnessed.size +
      frames.countP (fun other => records other && decide (s.addressee other = some key)) ≤ witnessLimit)
    (hLive' : (frames.foldl step s).liveWireRequests[key]? = some live') :
    live'.returns.witnessed[co]?.isSome = true := by
  induction frames generalizing s live with
  | nil => cases hMem
  | cons other frames ih =>
    rw [List.countP_cons] at hRoom
    obtain ⟨-, -, -, hLive⟩ := requestFor_eq_some.mp hFor
    rcases mem_cons.mp hMem with rfl | hMem
    · -- recorded now, and kept by the rest of the loop
      have hAddressee := addressee_of_requestFor hFor
      have hNow : (step s frame).liveWireRequests[key]? =
          some { live with returns := live.returns.witness co ⟨frame.event.id, frame.event.createdAt⟩ } := by
        rw [hStep, RequestState.recordWitness, hCoordinate]
        simp only [RequestState.recordCoordinateWitness, hFor, hCan, if_true]
        rw [get_insert, if_pos rfl]
      refine ((Extends.foldl h.grows frames _).grows hNow hLive').kept co (witness_present ?_)
      simp only [hRecords, hAddressee, decide_true, Bool.and_true, if_true] at hRoom
      omega
    · obtain ⟨middle, hMiddle, hGrows⟩ := (h.grows s other).requestFor hFor
      obtain ⟨-, -, -, hAt⟩ := requestFor_eq_some.mp hMiddle
      have hSize := h.size s other live middle hLive hAt
      refine ih hMem hMiddle (hGrows.filter ▸ hCan) ?_ hLive'
      simp only [(h.grows s other).addressee]
      omega

end Room

theorem recordWitness_size (hLive : s.liveWireRequests[key]? = some live)
    (hLive' : (s.recordWitness frame).liveWireRequests[key]? = some live') :
    live'.returns.witnessed.size ≤ live.returns.witnessed.size + if s.addressee frame = some key then 1 else 0 := by
  unfold RequestState.recordWitness at hLive'
  split at hLive'
  · cases hLive.symm.trans hLive'
    exact Nat.le_add_right _ _
  unfold RequestState.recordCoordinateWitness at hLive'
  split at hLive'
  · cases hLive.symm.trans hLive'
    exact Nat.le_add_right _ _
  next other found hFor =>
  split at hLive'
  · simp only [get_insert] at hLive'
    split at hLive'
    next hSame =>
      obtain rfl := hSame
      obtain ⟨-, -, -, hFound⟩ := requestFor_eq_some.mp hFor
      cases hLive.symm.trans hFound
      cases hLive'
      rw [if_pos (addressee_of_requestFor hFor)]
      exact witness_size
    · cases hLive.symm.trans hLive'
      exact Nat.le_add_right _ _
  · cases hLive.symm.trans hLive'
    exact Nat.le_add_right _ _

theorem records_recordWitness (key : RequestKey) : Records key (fun _ => true) RequestState.recordWitness where
  grows := extends_recordWitness
  size s frame live live' hLive hLive' := by simpa using recordWitness_size hLive hLive'

def EventFrame.storesItself (frame : EventFrame) : Bool := frame.door = .stores .committed

theorem records_install (key : RequestKey) :
    Records key EventFrame.storesItself RequestState.installSemanticSourceSuccessor where
  grows := extends_installSemanticSourceSuccessor
  size s frame live live' hLive hLive' := by
    unfold RequestState.installSemanticSourceSuccessor RequestState.ingestOrdinary at hLive'
    split at hLive'
    next result hDoor =>
      split at hLive'
      next hCommitted =>
        have hSize := recordWitness_size hLive hLive'
        simpa [EventFrame.storesItself, hDoor, hCommitted] using hSize
      · cases hLive.symm.trans hLive'
        exact Nat.le_add_right _ _
    · cases hLive.symm.trans hLive'
      exact Nat.le_add_right _ _

theorem records_returned (key : RequestKey) :
    Records key (fun _ => false) fun s frame => s.recordReturnedEventFrame frame.session frame.wire where
  grows s frame := extends_recordReturnedEventFrame s frame.session frame.wire
  size s frame live live' hLive hLive' := by
    have hSame : live'.returns.witnessed = live.returns.witnessed := by
      unfold RequestState.recordReturnedEventFrame at hLive'
      split at hLive'
      · simp only [RequestState.eraseReturnedFrameCounts, RequestState.mapReturns, getElem?_map, hLive, map_some] at hLive'
        cases hLive'
        dsimp only
        split <;> rfl
      next other found hFor =>
      obtain ⟨-, -, -, hFound⟩ := requestFor_eq_some.mp hFor
      split at hLive'
      · simp only [get_insert] at hLive'
        split at hLive'
        next hKey =>
          obtain rfl := hKey
          cases hLive.symm.trans hFound
          cases hLive'
          rfl
        · cases hLive.symm.trans hLive'
          rfl
      · cases hLive.symm.trans hLive'
        rfl
    simp [hSame]

def EventFrame.Stored (frame : EventFrame) (result : IngestResult) : Prop :=
  frame.door = .stores .committed ∨ frame.door = .passes ∧ result = .committed

theorem countP_doors (p : EventFrame → Bool) (frames : List EventFrame) :
    (frames.countP fun frame => frame.storesItself && p frame) +
      ((frames.filter fun frame => frame.door = .passes).countP fun frame => true && p frame) ≤ frames.countP p := by
  simp only [List.countP_filter]
  induction frames with
  | nil => simp
  | cons frame frames ih =>
    simp only [List.countP_cons]
    have hFrame : (if (frame.storesItself && p frame) = true then 1 else 0) +
        (if ((true && p frame) && decide (frame.door = .passes)) = true then 1 else 0) ≤ if p frame = true then 1 else 0 := by
      unfold EventFrame.storesItself
      cases p frame <;> cases frame.door <;> simp
      split_ifs <;> simp
    omega

/-- A frame for a request with room for all frames of the batch that come for it is remembered once it is stored. -/
theorem onEventFrames_records (hMem : frame ∈ frames) (hStored : frame.Stored result)
    (hCoordinate : eventCoordinate frame.event = some co)
    (hFor : s.requestFor frame.session frame.wire = some (key, live)) (hCan : requestCanWitness live.filter = true)
    (hRoom : live.returns.witnessed.size + frames.countP (fun other => s.addressee other = some key) ≤ witnessLimit)
    (hLive' : (s.onEventFrames frames result).liveWireRequests[key]? = some live') :
    live'.returns.witnessed[co]?.isSome = true := by
  have hCounted := Extends.foldl (records_returned key).grows frames s
  obtain ⟨counted, hFor', hGrows⟩ := hCounted.requestFor hFor
  obtain ⟨-, -, -, hLive⟩ := requestFor_eq_some.mp hFor
  obtain ⟨-, -, -, hAt⟩ := requestFor_eq_some.mp hFor'
  have hSize := (records_returned key).foldl_size frames s hLive hAt
  simp only [Bool.false_and, List.countP_false, Function.const_apply, Nat.add_zero] at hSize
  have hDoors := countP_doors (fun other => decide (s.addressee other = some key)) frames
  simp only [← hCounted.addressee] at hDoors hRoom
  unfold RequestState.onEventFrames RequestState.ingestRelayObservations at hLive'
  generalize frames.foldl (fun s frame => s.recordReturnedEventFrame frame.session frame.wire) s = start at *
  have hInstalled := Extends.foldl extends_installSemanticSourceSuccessor frames start
  obtain ⟨installed, hFor'', hGrows'⟩ := hInstalled.requestFor hFor'
  obtain ⟨-, -, -, hAt'⟩ := requestFor_eq_some.mp hFor''
  have hCan' : requestCanWitness counted.filter = true := hGrows.filter ▸ hCan
  rcases hStored with hDoor | ⟨hDoor, rfl⟩
  · refine ((extends_ingestOrdinary _ _ result).grows hAt' hLive').kept co ((records_install key).foldl_records
      (by simp [EventFrame.storesItself, hDoor]) (fun s => ?_) hCoordinate hMem hFor' hCan' (by omega) hAt')
    simp only [RequestState.installSemanticSourceSuccessor, hDoor]
    rfl
  · have hSize' := (records_install key).foldl_size frames start hAt hAt'
    refine (records_recordWitness key).foldl_records rfl (fun _ => rfl) hCoordinate
      (mem_filter.mpr ⟨hMem, decide_eq_true hDoor⟩) hFor'' (hGrows'.filter ▸ hCan') ?_ hLive'
    simp only [hInstalled.addressee]
    omega

/-- A request of the session proves the absence of the coordinate. -/
def RequestState.Proved (s : RequestState) (session : RelaySessionKey) (coordinate : Coordinate) : Prop :=
  ∃ (sub : SubId) (live : LiveWireRequest), s.liveWireRequests[(session, sub)]? = some live ∧ live.Proves coordinate

structure RequestWorld where
  state : RequestState := {}
  received : List (RequestKey × Coordinate) := []

def RequestState.delivery (s : RequestState) (frame : EventFrame) : Option (RequestKey × Coordinate) :=
  match s.requestFor frame.session frame.wire, eventCoordinate frame.event with
  | some (key, _), some coordinate => some (key, coordinate)
  | _, _ => none

/-- What can happen to the requests. A frame that the cache of committed observations answers comes without the subscription
that it was sent for. -/
inductive RequestCall where
  | names (subIdByWire : Table (RelaySessionKey × WireToken) SubId)
  | queues (awaiting : List (RequestKey × ConcreteFilter))
  | accepts (key : RequestKey) (filter : ConcreteFilter) (handle revision : Nat)
  | commitsInterval (key : RequestKey) (revision : Nat) (interval : Option CoverageInterval)
  | finishes (key : RequestKey) (revision : Nat)
  | closesSession (session : RelaySessionKey) (handle : Nat)
  | closesSub (key : RequestKey) (handle : Nat)
  | abandonsSub (sub : SubId)
  | abandonsSession (session : RelaySessionKey)
  | losesFrames (session : RelaySessionKey)
  | observes (key : RequestKey) (event : Event)
  | events (frames : List EventFrame) (result : IngestResult)

namespace RequestWorld

variable (w : RequestWorld)

def call : RequestCall → RequestWorld
  | .names subIdByWire => { w with state := { w.state with subIdByWire } }
  | .queues awaiting => { w with state := { w.state with awaiting } }
  | .accepts key filter handle revision =>
    { state := w.state.acceptRequest key filter handle revision, received := w.received.filter fun entry => entry.1 ≠ key }
  | .commitsInterval key revision interval => { w with state := w.state.commitInterval key revision interval }
  | .finishes key revision => { w with state := w.state.finishStoredEvents key revision }
  | .closesSession session handle => { w with state := w.state.closeRequestsForSession session handle }
  | .closesSub key handle => { w with state := w.state.closeRequestsForSub key handle }
  | .abandonsSub sub => { w with state := w.state.abandonSub sub }
  | .abandonsSession session => { w with state := w.state.abandonSessionSubs session }
  | .losesFrames session => { w with state := w.state.eraseReturnedFrameCounts session }
  | .observes key event =>
    { state := w.state.eraseReturnedFrameCounts key.1
      received := w.received ++ ((eventCoordinate event).map fun coordinate => (key, coordinate)).toList }
  | .events frames result =>
    { state := w.state.onEventFrames frames result, received := w.received ++ frames.filterMap w.state.delivery }

/-- A request that is open and covers the coordinate has been sent it and does not remember it. -/
def Doubted (session : RelaySessionKey) (coordinate : Coordinate) : Prop :=
  ∃ (sub : SubId) (live : LiveWireRequest), ((session, sub), coordinate) ∈ w.received ∧ w.state.liveWireRequests[(session, sub)]? = some live ∧
    selectsCoordinate live.filter coordinate = true ∧ ¬ live.Remembers coordinate

/-- A coordinate may be sent without being remembered only while no request of the session proves its absence, and a
request may end its stored events only if it then proves the absence of no coordinate in doubt. -/
def Plain : RequestCall → Prop
  | .observes key event => ∀ (live : LiveWireRequest) (coordinate : Coordinate), w.state.liveWireRequests[key]? = some live →
      eventCoordinate event = some coordinate → selectsCoordinate live.filter coordinate = true →
      live.Remembers coordinate ∨ ¬ w.state.Proved key.1 coordinate
  | .events frames result => ∀ frame ∈ frames, ∀ (key : RequestKey) (live : LiveWireRequest) (coordinate : Coordinate),
      w.state.requestFor frame.session frame.wire = some (key, live) → eventCoordinate frame.event = some coordinate →
      selectsCoordinate live.filter coordinate = true →
      live.Remembers coordinate ∨ ¬ w.state.Proved key.1 coordinate ∨
        frame.Stored result ∧ live.filter.until = none ∧
          live.returns.witnessed.size + frames.countP (fun other => w.state.addressee other = some key) ≤ witnessLimit
  | .finishes key revision => ∀ (live : LiveWireRequest) (interval : Option CoverageInterval) (coordinate : Coordinate),
      w.state.liveWireRequests[key]? = some live → live.storedEvents = .streaming revision interval →
      selectsCoordinate live.filter coordinate = true → w.Doubted key.1 coordinate →
      provesAbsence live.filter interval live.returns.storedFrames = false
  | _ => True

inductive Reached : RequestWorld → Prop where
  | start : Reached {}
  | call {w : RequestWorld} (step : RequestCall) : Reached w → w.Plain step → Reached (w.call step)

/-- Absence is not claimed for a coordinate that an open request which covers it has been sent. -/
def Honest : Prop :=
  ∀ (coordinate : Coordinate) (session : RelaySessionKey), w.state.coordinateCoverage coordinate session = .provenAbsent →
    ∀ (sub : SubId) (live : LiveWireRequest), w.state.liveWireRequests[(session, sub)]? = some live →
      selectsCoordinate live.filter coordinate = true → ((session, sub), coordinate) ∉ w.received

/-- No request proves the absence of a coordinate in doubt. -/
def Sound : Prop :=
  ∀ (session : RelaySessionKey) (coordinate : Coordinate), w.Doubted session coordinate →
    ¬ w.state.Proved session coordinate

variable {w : RequestWorld} {state : RequestState}

theorem Sound.delivers (h : w.Sound) (hExtends : Extends w.state state) {new : List (RequestKey × Coordinate)}
    (hNew : ∀ key coordinate, (key, coordinate) ∈ new → ∀ live, w.state.liveWireRequests[key]? = some live →
      selectsCoordinate live.filter coordinate = true → live.Remembers coordinate ∨ ¬ w.state.Proved key.1 coordinate ∨
        ∀ live', state.liveWireRequests[key]? = some live' → live'.Remembers coordinate) :
    Sound ⟨state, w.received ++ new⟩ := by
  rintro session coordinate ⟨sub, live', hReceived, hLive', hSelects, hForgets⟩ ⟨prover, found, hFound, hProves⟩
  have hProved : w.state.Proved session coordinate := by
    obtain ⟨earlier, hEarlier, hGrows⟩ := hExtends.requests _ found hFound
    exact ⟨prover, earlier, hEarlier, hGrows.proves hProves⟩
  obtain ⟨live, hLive, hGrows⟩ := hExtends.requests _ live' hLive'
  rw [hGrows.filter] at hSelects
  have hForgot : ¬ live.Remembers coordinate := fun hRemembers => hForgets (hGrows.remembers hRemembers)
  rcases mem_append.mp hReceived with hOld | hSent
  · exact h session coordinate ⟨sub, live, hOld, hLive, hSelects, hForgot⟩ hProved
  · rcases hNew _ coordinate hSent live hLive hSelects with hRemembers | hUnproved | hLater
    · exact hForgot hRemembers
    · exact hUnproved hProved
    · exact hForgets (hLater live' hLive')

/-- A step that forgets requests, or changes one that still streams, keeps what was sound. -/
theorem Sound.of_requests {received : List (RequestKey × Coordinate)} (h : w.Sound)
    (hReceived : ∀ key coordinate, (key, coordinate) ∈ received → ∀ live', state.liveWireRequests[key]? = some live' →
      (key, coordinate) ∈ w.received ∧ ∃ live, w.state.liveWireRequests[key]? = some live ∧
        live'.filter = live.filter ∧ live'.returns = live.returns)
    (hProves : ∀ (key : RequestKey) live' coordinate, state.liveWireRequests[key]? = some live' → live'.Proves coordinate →
      w.Doubted key.1 coordinate → w.state.Proved key.1 coordinate) : Sound ⟨state, received⟩ := by
  rintro session coordinate ⟨sub, live', hSent, hLive', hSelects, hForgets⟩ ⟨prover, found, hFound, hProved⟩
  obtain ⟨hSent', live, hLive, hFilter, hReturns⟩ := hReceived _ coordinate hSent live' hLive'
  have hDoubted : w.Doubted session coordinate := by
    refine ⟨sub, live, hSent', hLive, hFilter ▸ hSelects, fun hRemembers => hForgets ?_⟩
    rwa [LiveWireRequest.Remembers, hFilter, hReturns]
  exact h session coordinate hDoubted (hProves (session, prover) found coordinate hFound hProved hDoubted)

theorem Sound.retainRequests (h : w.Sound) (keep : RequestKey → LiveWireRequest → Bool) :
    Sound { w with state := w.state.retainRequests keep } := by
  have hKept : ∀ (key : RequestKey) live', (w.state.retainRequests keep).liveWireRequests[key]? = some live' →
      w.state.liveWireRequests[key]? = some live' := by
    intro key live' hLive'
    rw [RequestState.retainRequests, get_filter] at hLive'
    exact (filter_eq_some_iff.mp hLive').1
  exact h.of_requests (fun key coordinate hSent live' hLive' => ⟨hSent, live', hKept key live' hLive', rfl, rfl⟩)
    fun key live' coordinate hLive' hProves _ => ⟨key.2, live', hKept key live' hLive', hProves⟩

theorem Sound.accepts (h : w.Sound) (key : RequestKey) (filter : ConcreteFilter) (handle revision : Nat) :
    Sound (w.call (.accepts key filter handle revision)) := by
  refine h.of_requests (fun other coordinate hSent live' hLive' => ?_) fun other live' coordinate hLive' hProves _ => ?_
  · obtain ⟨hSent, hOther⟩ := mem_filter.mp hSent
    simp only [RequestState.acceptRequest, get_insert, if_neg (Ne.symm (of_decide_eq_true hOther))] at hLive'
    exact ⟨hSent, live', hLive', rfl, rfl⟩
  · simp only [RequestState.acceptRequest, get_insert] at hLive'
    split at hLive'
    · cases hLive'
      obtain ⟨-, _, _, hFinished, -⟩ := hProves
      cases hFinished
    · exact ⟨other.2, live', hLive', hProves⟩

theorem modifyStored_cases {key : RequestKey} {change : StoredEvents → StoredEvents}
    (h : (w.state.modifyStored key change).liveWireRequests[other]? = some live') :
    ∃ live, w.state.liveWireRequests[other]? = some live ∧
      (live' = live ∨ other = key ∧ live' = { live with storedEvents := change live.storedEvents }) := by
  unfold RequestState.modifyStored at h
  split at h
  · exact ⟨live', h, .inl rfl⟩
  next live hLive =>
  simp only [get_insert] at h
  split at h
  next hSame =>
    cases h
    exact ⟨live, hSame ▸ hLive, .inr ⟨hSame.symm, rfl⟩⟩
  · exact ⟨live', h, .inl rfl⟩

theorem Sound.modifyStored (h : w.Sound) (key : RequestKey) (change : StoredEvents → StoredEvents)
    (hChange : ∀ live coordinate revision interval, w.state.liveWireRequests[key]? = some live →
      change live.storedEvents = .finished revision interval → selectsCoordinate live.filter coordinate = true →
      w.Doubted key.1 coordinate → provesAbsence live.filter interval live.returns.storedFrames = true →
      live.Proves coordinate) :
    Sound { w with state := w.state.modifyStored key change } := by
  refine h.of_requests (fun other coordinate hSent live' hLive' => ?_)
    fun other live' coordinate hLive' hProves hDoubted => ?_
  · obtain ⟨live, hLive, rfl | ⟨-, rfl⟩⟩ := modifyStored_cases hLive'
    · exact ⟨hSent, _, hLive, rfl, rfl⟩
    · exact ⟨hSent, live, hLive, rfl, rfl⟩
  · obtain ⟨live, hLive, rfl | ⟨rfl, rfl⟩⟩ := modifyStored_cases hLive'
    · exact ⟨other.2, _, hLive, hProves⟩
    · obtain ⟨hSelects, revision, interval, hFinished, hAbsence⟩ := hProves
      exact ⟨other.2, live, hLive, hChange live coordinate revision interval hLive hFinished hSelects hDoubted hAbsence⟩

theorem Sound.commitsInterval (h : w.Sound) (key : RequestKey) (revision : Nat) (interval : Option CoverageInterval) :
    Sound (w.call (.commitsInterval key revision interval)) := by
  refine h.modifyStored key _ fun live coordinate own found _ hFinished hSelects _ hAbsence => ?_
  cases hStored : live.storedEvents with
  | streaming =>
    simp only [hStored] at hFinished
    split at hFinished <;> cases hFinished
  | finished =>
    simp only [hStored] at hFinished
    cases hFinished
    exact ⟨hSelects, own, found, hStored, hAbsence⟩

theorem Sound.finishes (h : w.Sound) {key : RequestKey} {revision : Nat} (hPlain : w.Plain (.finishes key revision)) :
    Sound (w.call (.finishes key revision)) := by
  refine h.modifyStored key _ fun live coordinate own found hLive hFinished hSelects hDoubted hAbsence => ?_
  cases hStored : live.storedEvents with
  | streaming =>
    simp only [hStored] at hFinished
    split at hFinished
    next hRevision =>
      cases hFinished
      have hNone := hPlain live found coordinate hLive (hRevision ▸ hStored) hSelects hDoubted
      cases hNone.symm.trans hAbsence
    · cases hFinished
  | finished =>
    simp only [hStored] at hFinished
    cases hFinished
    exact ⟨hSelects, own, found, hStored, hAbsence⟩

theorem Sound.observes (h : w.Sound) (hPlain : w.Plain (.observes key event)) :
    Sound (w.call (.observes key event)) := by
  refine h.delivers (extends_eraseReturnedFrameCounts w.state key.1) fun other coordinate hSent live hLive hSelects => ?_
  obtain ⟨_, hCoordinate, hSame⟩ := map_eq_some_iff.mp (Option.mem_toList.mp hSent)
  obtain ⟨rfl, rfl⟩ := Prod.mk.inj hSame
  exact (hPlain live _ hLive hCoordinate hSelects).imp_right .inl

theorem Sound.events (h : w.Sound) (hPlain : w.Plain (.events frames result)) :
    Sound (w.call (.events frames result)) := by
  have hExtends := extends_onEventFrames w.state frames result
  refine h.delivers hExtends fun key coordinate hSent live hLive hSelects => ?_
  obtain ⟨frame, hMem, hDelivery⟩ := mem_filterMap.mp hSent
  unfold RequestState.delivery at hDelivery
  split at hDelivery
  next own found sent hFor hCoordinate =>
    cases Option.some.inj hDelivery
    obtain ⟨-, -, -, hFound⟩ := requestFor_eq_some.mp hFor
    cases hLive.symm.trans hFound
    refine (hPlain frame hMem _ live _ hFor hCoordinate hSelects).imp_right (Or.imp_right ?_)
    rintro ⟨hStored, hUntil, hRoom⟩ live' hLive'
    exact ⟨(hExtends.grows hLive hLive').filter ▸ hUntil, onEventFrames_records hMem hStored hCoordinate hFor
      (requestCanWitness_of_selects hSelects hUntil) hRoom hLive'⟩
  · cases hDelivery

theorem Sound.of_state (h : w.Sound) (hLive : state.liveWireRequests = w.state.liveWireRequests) :
    Sound { w with state } :=
  h.of_requests (fun _ _ hSent live' hLive' => ⟨hSent, live', hLive ▸ hLive', rfl, rfl⟩)
    fun key live' _ hLive' hProves _ => ⟨key.2, live', hLive ▸ hLive', hProves⟩

theorem Reached.sound (h : Reached w) : w.Sound := by
  induction h with
  | start =>
    rintro session coordinate ⟨_, _, hSent, -⟩
    cases hSent
  | call step _ hPlain ih =>
    cases step with
    | names => exact ih.of_state rfl
    | queues => exact ih.of_state rfl
    | accepts key filter handle revision => exact ih.accepts key filter handle revision
    | commitsInterval key revision interval => exact ih.commitsInterval key revision interval
    | finishes => exact ih.finishes hPlain
    | closesSession => exact ih.retainRequests _
    | closesSub => exact ih.retainRequests _
    | abandonsSub => exact ih.retainRequests _
    | abandonsSession => exact ih.retainRequests _
    | losesFrames session =>
      have hSound := ih.delivers (extends_eraseReturnedFrameCounts _ session)
        (show ∀ _ _, _ ∈ ([] : List (RequestKey × Coordinate)) → _ from fun _ _ hNone => absurd hNone not_mem_nil)
      rwa [List.append_nil] at hSound
    | observes => exact ih.observes hPlain
    | events => exact ih.events hPlain

end RequestWorld

theorem scanRequest_unwitnessed (h : ents.foldlM (RequestState.scanRequest co k) scan = .ok scan')
    (hI : (key, live) ∈ ents) (hE : key.1 = k)
    (he : selectsCoordinate live.filter co = true) (hU : live.filter.until = none) :
    live.returns.witnessed[co]? = none := by
  induction ents generalizing scan with
  | nil => cases hI
  | cons e ents ih =>
    rw [foldlM_cons] at h
    rcases mem_cons.mp hI with rfl | hI
    · by_contra hs
      obtain ⟨wt, hW⟩ := Option.ne_none_iff_exists'.mp hs
      simp [RequestState.scanRequest, hE, he, hU, hW, bind, Except.bind] at h
    cases hS : RequestState.scanRequest co k scan e with
    | error an =>
      rw [hS] at h
      cases h
    | ok m =>
      rw [hS] at h
      exact ih h hI

theorem scanRequest_error (h : ents.foldlM (RequestState.scanRequest co k) scan = .error answer) :
    ∃ wt, answer = .witnessed wt := by
  induction ents generalizing scan with
  | nil => cases h
  | cons e ents ih =>
    rw [foldlM_cons] at h
    cases hS : RequestState.scanRequest co k scan e with
    | ok m =>
      rw [hS] at h
      exact ih h
    | error er =>
      rw [hS] at h
      obtain rfl := Except.error.inj h
      unfold RequestState.scanRequest at hS
      dsimp only at hS
      split at hS
      · cases hS
      split at hS
      · rename_i wt _
        exact ⟨wt, (Except.error.inj hS).symm⟩
      split at hS
      · cases hS
      · split at hS <;> cases hS

theorem scanRequest_absent (h : ents.foldlM (RequestState.scanRequest co session) scan = .ok scan')
    (hAbsent : scan'.absent = true) :
    scan.absent = true ∨ ∃ key live, (key, live) ∈ ents ∧ key.1 = session ∧ live.Proves co := by
  induction ents generalizing scan with
  | nil =>
    cases h
    exact .inl hAbsent
  | cons entry ents ih =>
    rw [foldlM_cons] at h
    cases hScan : RequestState.scanRequest co session scan entry with
    | error answer =>
      rw [hScan] at h
      cases h
    | ok middle =>
      rw [hScan] at h
      rcases ih h with hMiddle | ⟨key, live, hMem, hProves⟩
      · unfold RequestState.scanRequest at hScan
        dsimp only at hScan
        split at hScan
        · cases hScan
          exact .inl hMiddle
        next hCovers =>
        obtain ⟨hSession, hSelects⟩ := not_or.mp hCovers
        split at hScan
        · cases hScan
        split at hScan
        next revision interval hFinished =>
          cases hScan
          refine ((Bool.or_eq_true _ _).mp hMiddle).imp_right fun hProves => ?_
          exact ⟨entry.1, entry.2, .head _, not_not.mp hSession, by simpa using hSelects, revision, interval, hFinished, hProves⟩
        · split at hScan <;> cases hScan <;> exact .inl hMiddle
      · exact .inr ⟨key, live, .tail _ hMem, hProves⟩

/-- A request for the contact list of an author has been answered with one, and the stored events have ended. -/
def contactListRun (door : SemanticDoor) : List RequestCall :=
  let session : RelaySessionKey := ("wss://r", none)
  let sub : SubId := ("wss://r", 1, none)
  [.names ((∅ : Table (RelaySessionKey × WireToken) SubId).insert (session, 1) sub),
    .accepts (session, sub) { kinds := some (.ofList [3] compare), authors := some (.ofList [7] compare) } 0 0,
    .events [⟨session, 1, .bare 1 7 10 3, door⟩] .committed,
    .commitsInterval (session, sub) 0 (some ⟨0, 20⟩),
    .finishes (session, sub) 0]

theorem of_all_eq_true {X : Type} {found : Option X} {x : X} {p : X → Bool} (h : found = some x) (hAll : found.all p = true) :
    p x = true := by
  rwa [h, Option.all_some] at hAll

theorem not_doubted {w : RequestWorld} (h : (w.received.all fun sent => w.state.liveWireRequests[sent.1]?.all fun live =>
    live.filter.until.isNone && live.returns.witnessed[sent.2]?.isSome) = true) : ¬ w.Doubted session coordinate := by
  rintro ⟨sub, live, hSent, hLive, -, hForgets⟩
  have hRemembers := all_eq_true.mp h _ hSent
  rw [hLive, Option.all_some, and_eq_true] at hRemembers
  exact hForgets ⟨isNone_iff_eq_none.mp hRemembers.1, hRemembers.2⟩

end NmpStore.Engine
