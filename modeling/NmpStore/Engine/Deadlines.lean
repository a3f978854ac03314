import NmpStore.Engine.Verdicts
import NmpStore.Store.Attempts

/-! # Consuming the due deadlines

The reducer reads the due deadlines batch by batch and moves the lane of each, until nothing is due. A deadline whose lane
could not be moved is read again.
-/

namespace NmpStore.Engine

/-- The lane has a deadline that is due. -/
def dueAt (now : Nat) (lane : Lane) : Bool := (laneStateDeadline lane.state).any (·.1 ≤ now)

/-- What a call meets: the writes that are lost, and what follows a give-up and the last batch. The closing of a write
touches no write with a lane that can come due; the pass over the ready lanes reads no deadline. -/
structure DeadlineCall where
  now : Nat
  maxPublishAttempts : Nat
  fails : Nat → Bool
  relayUrl : QueueRelayId → Bytes
  close : List Deadline → LaneKey → Queue → Queue
  close_lanes : ∀ attempted key q, (close attempted key q).lanes = q.lanes
  close_details : ∀ attempted key q, (close attempted key q).attemptDetails = q.attemptDetails
  close_mirrors : ∀ attempted key q, q.Mirrors → (close attempted key q).Mirrors
  close_intents : ∀ attempted key q (intentId : IntentId) (relay : QueueRelayId) lane,
    q.lanes[(intentId, relay)]? = some lane → (laneStateDeadline lane.state).isSome →
    (close attempted key q).intents[intentId]? = q.intents[intentId]?
  scheduleReady : Queue → Queue

structure DeadlineRun where
  queue : Queue
  writes : Nat := 0
  /-- The deadlines whose lanes were to be moved, the last first. -/
  attempted : List Deadline := []

abbrev lane (deadline : Deadline) : IntentId × QueueRelayId := (deadline.key.intentId, deadline.key.relay)

namespace DeadlineCall

variable (c : DeadlineCall) (attempted : List Deadline) (q : Queue) (s : DeadlineRun) (deadline : Deadline)

def retryOrGiveUp (ordinal : Nat) : Result Queue :=
  if ordinal ≥ c.maxPublishAttempts then do
    let (_, q) ← q.finishLaneAttempt deadline.key deadline.laneRevision ordinal .gaveUp c.now
    pure (c.close attempted deadline.key q)
  else do
    let delay := retryDelaySecs (c.relayUrl deadline.key.relay) deadline.key.intentId ordinal
    let (_, q) ← q.setLaneTransient deadline.key deadline.laneRevision ordinal (min (c.now + delay) u64Max) .ackTimeout
      (some "ack timeout")
    pure q

/-- The write for a deadline, unless its lane has changed. -/
def transition : Option (Result Queue) :=
  match q.lanes[lane deadline]? with
  | none => none
  | some lane =>
    if lane.eventId ≠ deadline.key.eventId ∨ lane.revision ≠ deadline.laneRevision then none
    else match deadline.kind, lane.state with
      | .retryEligible, .transient _ _ _ _ => some do
        let (_, q) ← q.setLaneEligible deadline.key lane.revision deadline.instant
        pure q
      | .ackTimeout, .inFlight ordinal (.awaitingAck _) => some (c.retryOrGiveUp attempted q deadline ordinal)
      | _, _ => none

def commit (op : Result Queue) : DeadlineRun :=
  match c.fails s.writes, op with
  | false, .ok queue => { queue, writes := s.writes + 1, attempted := deadline :: s.attempted }
  | _, _ => { s with writes := s.writes + 1, attempted := deadline :: s.attempted }

def handle : DeadlineRun :=
  match c.transition s.attempted s.queue deadline with
  | none => s
  | some op => c.commit s deadline op

/-- Whether so many batches are enough, and what they lead to. -/
def consumeDue (c : DeadlineCall) : Nat → DeadlineRun → Bool × DeadlineRun
  | 0, s => (false, s)
  | fuel + 1, s =>
    match s.queue.dueDeadlines c.now 1024 with
    | .ok (first :: rest) => consumeDue c fuel ((first :: rest).foldl c.handle s)
    | _ => (true, { s with queue := c.scheduleReady s.queue })

/-- The store takes the write for the deadline as the queue stands. -/
def Accepts : Prop := ∃ q', c.transition [] q deadline = some (.ok q')

/-- A lane has come to the deadline, and the deadline is due. -/
structure Due (now : Nat) (q : Queue) (deadline : Deadline) (own : Lane) : Prop where
  found : q.lanes[lane deadline]? = some own
  eventId : own.eventId = deadline.key.eventId
  revision : own.revision = deadline.laneRevision
  state : laneStateDeadline own.state = some (deadline.instant, deadline.kind)
  due : deadline.instant ≤ now

/-- How many deadlines are due, one to a lane. -/
def dueCount (now : Nat) (q : Queue) : Nat := q.lanes.total fun row => if dueAt now row.2 then 1 else 0

/-- The store takes the write for every due deadline, and none of so many writes is lost. -/
structure Smooth (c : DeadlineCall) (s : DeadlineRun) : Prop where
  accepted : ∀ deadline own, Due c.now s.queue deadline own → c.Accepts s.queue deadline
  written : ∀ n < dueCount c.now s.queue, c.fails (s.writes + n) = false

variable {c attempted q s deadline} {d e : Deadline} {own other new : Lane} {q' : Queue} {clock : Nat}

theorem Due.unique (h : Due clock q d own) (h' : Due clock q e other) (hLane : lane d = lane e) : d = e := by
  obtain ⟨instant, ⟨intentId, eventId, relay⟩, revision, kind⟩ := d
  obtain ⟨instant', ⟨intentId', eventId', relay'⟩, revision', kind'⟩ := e
  obtain ⟨rfl, rfl⟩ := Prod.mk.inj hLane
  cases h.found.symm.trans h'.found
  obtain ⟨rfl, rfl⟩ := Prod.mk.inj (Option.some.inj (h.state.symm.trans h'.state))
  cases h.eventId.symm.trans h'.eventId
  cases h.revision.symm.trans h'.revision
  rfl

theorem Due.dueAt (h : Due clock q d own) : dueAt clock own = true := by
  simp [Engine.dueAt, h.state, h.due]

/-- The write for a due deadline moves its lane past it and touches nothing that the other due deadlines read. -/
structure Moves (clock : Nat) (d : Deadline) (q q' : Queue) (new : Lane) : Prop where
  lanes : q'.lanes = q.lanes.insert (lane d) new
  past : dueAt clock new = false
  mirrors : q.Mirrors → q'.Mirrors
  intents : ∀ (intentId : IntentId) (relay : QueueRelayId) lane, q'.lanes[(intentId, relay)]? = some lane →
    (laneStateDeadline lane.state).isSome → q'.intents[intentId]? = q.intents[intentId]?
  details : ∀ (intentId : IntentId) (relay : QueueRelayId) (ordinal : Nat), (intentId, relay) ≠ lane d →
    q'.attemptDetails[(intentId, relay, ordinal)]? = q.attemptDetails[(intentId, relay, ordinal)]?

theorem replaceLane_moves (clock : Nat) (hOk : q.replaceLane d.key revision state = .ok (new, q'))
    (hPast : dueAt clock ⟨d.key.eventId, 0, 0, state⟩ = false) : Moves clock d q q' new := by
  simp only [Queue.replaceLane, bind_ok, Queue.laneOf_ok, refuseIf_ok, pure_ok, Prod.mk.injEq] at hOk
  obtain ⟨current, hFound, -, -, -, -, -, -, lastOrdinal, -, rfl, rfl⟩ := hOk
  have hMirrors := fun h : q.Mirrors => h.putLane hFound ⟨d.key.eventId, current.revision + 1, lastOrdinal, state⟩
  obtain ⟨deadlines, hPut⟩ := q.putLane_frame d.key.intentId d.key.relay current
    ⟨d.key.eventId, current.revision + 1, lastOrdinal, state⟩
  exact ⟨by rw [hPut], hPast, hMirrors, fun _ _ _ _ _ => by rw [hPut], fun _ _ _ _ => by rw [hPut]⟩

theorem Moves.of_details {table : Table (IntentId × QueueRelayId × Nat) AttemptDetails}
    (h : Moves clock d { q with attemptDetails := table } q' new)
    (hDetails : ∀ (intentId : IntentId) (relay : QueueRelayId) (ordinal : Nat), (intentId, relay) ≠ lane d →
      table[(intentId, relay, ordinal)]? = q.attemptDetails[(intentId, relay, ordinal)]?) : Moves clock d q q' new :=
  ⟨h.lanes, h.past, fun hMirrors => h.mirrors (hMirrors.of_same rfl rfl), h.intents,
    fun intentId relay ordinal hOther => (h.details intentId relay ordinal hOther).trans (hDetails _ _ _ hOther)⟩

theorem putDetails_other (details : AttemptDetails) {ordinal ordinal' : Nat} {intentId : IntentId} {relay : QueueRelayId}
    (h : (intentId, relay) ≠ lane d) :
    (q.putDetails d.key ordinal details).attemptDetails[(intentId, relay, ordinal')]? =
      q.attemptDetails[(intentId, relay, ordinal')]? := by
  simp only [Queue.putDetails, get_insert]
  refine if_neg fun hSame => h ?_
  simp only [Prod.mk.injEq] at hSame
  simp [hSame.1, hSame.2.1]

theorem Moves.close (h : Moves clock d q q' new) (attempted : List Deadline) :
    Moves clock d q (c.close attempted d.key q') new where
  lanes := (c.close_lanes attempted d.key q').trans h.lanes
  past := h.past
  mirrors hMirrors := c.close_mirrors attempted d.key q' (h.mirrors hMirrors)
  intents intentId relay lane hLane hDeadline := by
    rw [c.close_lanes] at hLane
    exact (c.close_intents attempted d.key q' intentId relay lane hLane hDeadline).trans
      (h.intents intentId relay lane hLane hDeadline)
  details intentId relay ordinal hOther := by
    rw [c.close_details]
    exact h.details intentId relay ordinal hOther

/-- What the write for a deadline does if the store takes it. -/
theorem transition_moves (hNow : c.now < u64Max) (h : c.transition attempted q d = some (.ok q')) :
    ∃ new, Moves c.now d q q' new := by
  unfold transition at h
  split at h
  · cases h
  next own hFound =>
  split_ifs at h
  split at h
  next hKind hState =>
    simp only [Option.some.injEq, bind_ok, pure_ok] at h
    obtain ⟨⟨new, q⟩, hOk, rfl⟩ := h
    exact ⟨new, replaceLane_moves _ (Queue.persistLaneState_ok hOk).2 (by simp [Engine.dueAt, laneStateDeadline])⟩
  next ordinal _ hKind hState =>
    simp only [Option.some.injEq, retryOrGiveUp] at h
    split_ifs at h
    · simp only [Queue.finishLaneAttempt, bind_ok, pure_ok, Queue.laneOf_ok] at h
      obtain ⟨⟨new, q⟩, ⟨-, -, terminal, -, current, hCurrent, -, -, details, -, hOk⟩, rfl⟩ := h
      cases hFound.symm.trans hCurrent
      split at hOk
      · -- an attempt with an outcome is no longer in flight
        simp only [bind_ok, refuseIf_ok, not_or, not_not, hState] at hOk
        obtain ⟨-, ⟨-, -, hTerminal⟩, -⟩ := hOk
        cases hTerminal
      · obtain ⟨-, -, hOk⟩ := bind_ok.mp hOk
        have hMoves := replaceLane_moves c.now hOk (by simp [Engine.dueAt, laneStateDeadline])
        exact ⟨new, (hMoves.of_details fun _ _ _ hOther => putDetails_other _ hOther).close attempted⟩
    · have hDelay := retryDelaySecs_pos (c.relayUrl d.key.relay) d.key.intentId ordinal
      simp only [Queue.setLaneTransient, Queue.noteTransient, bind_ok, pure_ok] at h
      obtain ⟨⟨new, q⟩, ⟨-, -, -, -, -, -, noted, hNoted, hOk⟩, rfl⟩ := h
      have hMoves := replaceLane_moves c.now hOk (by simp [Engine.dueAt, laneStateDeadline]; omega)
      split_ifs at hNoted
      · simp only [Queue.recordTransient, bind_ok, pure_ok] at hNoted
        obtain ⟨details, -, rfl⟩ := hNoted
        exact ⟨new, hMoves.of_details fun _ _ _ hOther => putDetails_other _ hOther⟩
      · cases hNoted
        exact ⟨new, hMoves⟩
  · cases h

/-- Two queues agree on what the write for a deadline reads. -/
structure Same (d : Deadline) (q q' : Queue) : Prop where
  lanes : q'.lanes[lane d]? = q.lanes[lane d]?
  intents : q'.intents[d.key.intentId]? = q.intents[d.key.intentId]?
  details : ∀ ordinal : Nat, q'.attemptDetails[(d.key.intentId, d.key.relay, ordinal)]? =
    q.attemptDetails[(d.key.intentId, d.key.relay, ordinal)]?

theorem Same.symm (h : Same d q q') : Same d q' q := ⟨h.lanes.symm, h.intents.symm, fun ordinal => (h.details ordinal).symm⟩

theorem replaceLane_same (hLanes : q'.lanes[lane d]? = q.lanes[lane d]?)
    (hOk : q.replaceLane d.key revision state = .ok result) : ∃ result', q'.replaceLane d.key revision state = .ok result' := by
  simp only [Queue.replaceLane, bind_ok, Queue.laneOf_ok, pure_ok] at hOk ⊢
  obtain ⟨current, hFound, _, hEvent, _, hRevision, _, hMax, lastOrdinal, hOrdinal, -⟩ := hOk
  exact ⟨_, current, hLanes.trans hFound, (), hEvent, (), hRevision, (), hMax, lastOrdinal, hOrdinal, rfl⟩

theorem detailsOf_same (h : Same d q q') (ordinal : Nat) : q'.detailsOf d.key ordinal = q.detailsOf d.key ordinal := by
  unfold Queue.detailsOf
  rw [h.details]

theorem laneOf_same (h : Same d q q') : q'.laneOf d.key = q.laneOf d.key := by
  unfold Queue.laneOf
  rw [show q'.lanes[(d.key.intentId, d.key.relay)]? = _ from h.lanes]

/-- The write for a deadline is taken on one queue if it is taken on another that agrees on what it reads. -/
theorem Accepts.of_same (h : Same d q q') (hOk : c.transition attempted q d = some (.ok result)) (attempted' : List Deadline) :
    ∃ result', c.transition attempted' q' d = some (.ok result') := by
  unfold transition at hOk ⊢
  rw [h.lanes]
  split at hOk
  · cases hOk
  next own hFound =>
  split_ifs at hOk with hStale
  simp only [if_neg hStale]
  split at hOk
  next hKind hState =>
    simp only [Option.some.injEq, bind_ok, pure_ok, Queue.setLaneEligible] at hOk ⊢
    obtain ⟨⟨new, q₁⟩, hOk, -⟩ := hOk
    unfold Queue.persistLaneState at hOk ⊢
    rw [h.intents]
    split at hOk
    · cases hOk
    next intent hIntent =>
    split at hOk
    · cases hOk
    next current hCurrent =>
    obtain ⟨_, hEvent, hOk⟩ := bind_ok.mp hOk
    obtain ⟨result', hOk'⟩ := replaceLane_same h.lanes hOk
    exact ⟨_, result', bind_ok.mpr ⟨(), hEvent, hOk'⟩, rfl⟩
  next ordinal _ hKind hState =>
    simp only [Option.some.injEq, retryOrGiveUp] at hOk ⊢
    split_ifs at hOk ⊢ with hLast
    · simp only [Queue.finishLaneAttempt, bind_ok, pure_ok] at hOk ⊢
      obtain ⟨⟨new, q₁⟩, ⟨_, hStarted, terminal, hTerminal, current, hCurrent, _, hStale, details, hDetails, hOk⟩, -⟩ := hOk
      have hCurrent' := (laneOf_same h).trans hCurrent
      have hDetails' := (detailsOf_same h ordinal).trans hDetails
      cases hFinished : details.terminal with
      | some existing =>
        rw [hFinished] at hOk
        obtain ⟨_, hAgrees, -⟩ := bind_ok.mp hOk
        refine ⟨_, (current, q'), ⟨(), hStarted, terminal, hTerminal, current, hCurrent', (), hStale, details, hDetails', ?_⟩, rfl⟩
        rw [hFinished]
        exact bind_ok.mpr ⟨(), hAgrees, rfl⟩
      | none =>
        rw [hFinished] at hOk
        obtain ⟨_, hEncode, hOk⟩ := bind_ok.mp hOk
        obtain ⟨result', hOk'⟩ := replaceLane_same
          (show (q'.putDetails d.key ordinal _).lanes[lane d]? = (q.putDetails d.key ordinal _).lanes[lane d]? from h.lanes) hOk
        refine ⟨_, result', ⟨(), hStarted, terminal, hTerminal, current, hCurrent', (), hStale, details, hDetails', ?_⟩, rfl⟩
        rw [hFinished]
        exact bind_ok.mpr ⟨(), hEncode, hOk'⟩
    · simp only [Queue.setLaneTransient, bind_ok, pure_ok] at hOk ⊢
      obtain ⟨⟨new, q₁⟩, ⟨_, hShort, current, hCurrent, _, hStale, noted, hNoted, hOk⟩, -⟩ := hOk
      have hCurrent' := (laneOf_same h).trans hCurrent
      suffices hNoted' : ∃ noted', q'.noteTransient d.key ordinal _ = .ok noted' ∧
          noted'.lanes[lane d]? = noted.lanes[lane d]? by
        obtain ⟨noted', hNoted', hLanes⟩ := hNoted'
        obtain ⟨result', hOk'⟩ := replaceLane_same hLanes hOk
        exact ⟨_, result', ⟨(), hShort, current, hCurrent', (), hStale, noted', hNoted', hOk'⟩, rfl⟩
      unfold Queue.noteTransient at hNoted ⊢
      split_ifs at hNoted ⊢
      · simp only [Queue.recordTransient, bind_ok, pure_ok] at hNoted ⊢
        obtain ⟨details, hDetails, rfl⟩ := hNoted
        exact ⟨_, ⟨details, (detailsOf_same h ordinal).trans hDetails, rfl⟩, h.lanes⟩
      · cases hNoted
        exact ⟨q', rfl, h.lanes⟩
  · cases hOk

theorem Moves.same (h : Moves clock d q q' new) (hOther : lane e ≠ lane d) (hDue : Due clock q e own) : Same e q q' := by
  have hLane : q'.lanes[lane e]? = q.lanes[lane e]? := by rw [h.lanes, get_insert, if_neg hOther.symm]
  exact ⟨hLane, h.intents _ _ own (hLane.trans hDue.found) (by simp [hDue.state]), fun ordinal => h.details _ _ ordinal hOther⟩

theorem Moves.due_iff (h : Moves clock d q q' new) (hDue : Due clock q d own) :
    Due clock q' e other ↔ Due clock q e other ∧ e ≠ d := by
  by_cases hLane : lane e = lane d
  · refine iff_of_false (fun hE => ?_) fun hE => hE.2 (hE.1.unique hDue hLane)
    have hFound := hE.found
    rw [h.lanes, get_insert, if_pos hLane.symm] at hFound
    cases hFound
    exact absurd hE.dueAt (by simp [h.past])
  · have hSame : q'.lanes[lane e]? = q.lanes[lane e]? := by rw [h.lanes, get_insert, if_neg (Ne.symm hLane)]
    refine ⟨fun hE => ⟨⟨hSame.symm.trans hE.found, hE.eventId, hE.revision, hE.state, hE.due⟩, fun hEq => hLane (hEq ▸ rfl)⟩,
      fun hE => ⟨hSame.trans hE.1.found, hE.1.eventId, hE.1.revision, hE.1.state, hE.1.due⟩⟩

theorem Moves.dueCount (h : Moves clock d q q' new) (hDue : Due clock q d own) :
    dueCount clock q' + 1 = dueCount clock q := by
  have hReplace := Table.total_replace new (fun row => if dueAt clock row.2 then 1 else 0) hDue.found
  unfold DeadlineCall.dueCount
  rw [h.lanes]
  simpa [hDue.dueAt, h.past] using hReplace

theorem transition_some (hDue : Due clock q d own) (attempted : List Deadline) :
    ∃ op, c.transition attempted q d = some op := by
  have hState := hDue.state
  unfold transition
  rw [hDue.found]
  simp only [hDue.eventId, hDue.revision, ne_eq, not_true_eq_false, or_self, if_false]
  unfold laneStateDeadline at hState
  split at hState
  next hOwn =>
    have hKind := (Prod.mk.inj (Option.some.inj hState)).2
    simp only [hOwn, ← hKind]
    exact ⟨_, rfl⟩
  next hOwn =>
    have hKind := (Prod.mk.inj (Option.some.inj hState)).2
    simp only [hOwn, ← hKind]
    exact ⟨_, rfl⟩
  · cases hState

/-- What becomes of a due deadline: its lane is moved, or the write is lost or refused and nothing changes. -/
inductive Handles (c : DeadlineCall) (s : DeadlineRun) (d : Deadline) : DeadlineRun → Prop
  | moved {q : Queue} {new : Lane} (hMoves : Moves c.now d s.queue q new) (hAccepts : c.Accepts s.queue d)
      (hWritten : c.fails s.writes = false) :
      Handles c s d { queue := q, writes := s.writes + 1, attempted := d :: s.attempted }
  | refused (hRefused : c.Accepts s.queue d → c.fails s.writes = true) :
      Handles c s d { s with writes := s.writes + 1, attempted := d :: s.attempted }

theorem handle_handles (hNow : c.now < u64Max) (hDue : Due c.now s.queue d own) : Handles c s d (c.handle s d) := by
  obtain ⟨op, hOp⟩ := transition_some (c := c) hDue s.attempted
  have hSame : Same d s.queue s.queue := ⟨rfl, rfl, fun _ => rfl⟩
  simp only [handle, hOp, commit]
  cases hFails : c.fails s.writes with
  | true => exact .refused fun _ => hFails
  | false =>
    cases op with
    | ok q =>
      obtain ⟨new, hMoves⟩ := transition_moves hNow hOp
      exact .moved hMoves (Accepts.of_same hSame hOp []) hFails
    | error error =>
      refine .refused fun ⟨q', hOk⟩ => ?_
      obtain ⟨_, hOk'⟩ := Accepts.of_same hSame hOk s.attempted
      cases hOp.symm.trans hOk'

theorem Due.dueCount_pos (h : Due clock q d own) : 0 < dueCount clock q := by
  have hRest := Table.total_erase (fun row => if Engine.dueAt clock row.2 then 1 else 0) h.found
  simp only [h.dueAt, if_true] at hRest
  unfold dueCount
  omega

/-- The writes that are to come are as smooth after a write that is taken as before it. -/
theorem Moves.smooth_iff (h : Moves c.now d s.queue q new) (hDue : Due c.now s.queue d own) (hAccepts : c.Accepts s.queue d)
    (hWritten : c.fails s.writes = false) :
    c.Smooth { queue := q, writes := s.writes + 1, attempted := d :: s.attempted } ↔ c.Smooth s := by
  have hCount := h.dueCount hDue
  constructor
  · intro hSmooth
    refine ⟨fun e other hE => ?_, fun n hn => ?_⟩
    · by_cases hSame : e = d
      · exact hSame ▸ hAccepts
      · have hLane : lane e ≠ lane d := fun hLane => hSame (hE.unique hDue hLane)
        obtain ⟨_, hOk⟩ := hSmooth.accepted e other ((h.due_iff hDue).mpr ⟨hE, hSame⟩)
        exact Accepts.of_same (h.same hLane hE).symm hOk []
    · cases n with
      | zero => exact hWritten
      | succ n =>
        have hNext := hSmooth.written n (by dsimp only; omega)
        rwa [show s.writes + (n + 1) = s.writes + 1 + n by omega]
  · intro hSmooth
    refine ⟨fun e other hE => ?_, fun n hn => ?_⟩
    · obtain ⟨hE, hSame⟩ := (h.due_iff hDue).mp hE
      have hLane : lane e ≠ lane d := fun hLane => hSame (hE.unique hDue hLane)
      obtain ⟨_, hOk⟩ := hSmooth.accepted e other hE
      exact Accepts.of_same (h.same hLane hE) hOk []
    · have hNext := hSmooth.written (n + 1) (by dsimp only at hn; omega)
      rwa [show s.writes + (n + 1) = s.writes + 1 + n by omega] at hNext

theorem not_smooth (hDue : Due c.now s.queue d own) (hRefused : c.Accepts s.queue d → c.fails s.writes = true) :
    ¬ c.Smooth s := by
  intro hSmooth
  have hLost := hRefused (hSmooth.accepted d own hDue)
  have hWritten := hSmooth.written 0 hDue.dueCount_pos
  rw [Nat.add_zero, hLost] at hWritten
  cases hWritten

/-- A batch of due deadlines, one to a lane. -/
structure Batch (c : DeadlineCall) (q : Queue) (due : List Deadline) : Prop where
  each : ∀ deadline ∈ due, ∃ own, Due c.now q deadline own
  nodup : due.Nodup

theorem Handles.batch (h : Handles c s d s') (hBatch : Batch c s.queue (d :: due)) : Batch c s'.queue due := by
  obtain ⟨hNot, hNodup⟩ := nodup_cons.mp hBatch.nodup
  refine ⟨fun e hE => ?_, hNodup⟩
  obtain ⟨other, hOther⟩ := hBatch.each e (.tail _ hE)
  cases h with
  | moved hMoves =>
    obtain ⟨own, hOwn⟩ := hBatch.each d (.head _)
    exact ⟨other, (hMoves.due_iff hOwn).mpr ⟨hOther, fun hSame => hNot (hSame ▸ hE)⟩⟩
  | refused => exact ⟨other, hOther⟩

theorem Handles.mirrors (h : Handles c s d s') (hMirrors : s.queue.Mirrors) : s'.queue.Mirrors := by
  cases h with
  | moved hMoves => exact hMoves.mirrors hMirrors
  | refused => exact hMirrors

theorem Handles.log (h : Handles c s d s') : s'.attempted = d :: s.attempted := by
  cases h <;> rfl

/-- The deadlines attempted so far have passed. -/
structure Once (c : DeadlineCall) (s : DeadlineRun) : Prop where
  nodup : s.attempted.Nodup
  past : ∀ deadline ∈ s.attempted, ∀ own, ¬ Due c.now s.queue deadline own

theorem Once.moved (h : Once c s) (hMoves : Moves c.now d s.queue q new) (hDue : Due c.now s.queue d own) :
    Once c { queue := q, writes := s.writes + 1, attempted := d :: s.attempted } := by
  refine ⟨nodup_cons.mpr ⟨fun hMem => h.past d hMem own hDue, h.nodup⟩, fun e hE other hOther => ?_⟩
  obtain ⟨hBefore, hNot⟩ := (hMoves.due_iff hDue).mp hOther
  exact h.past e ((mem_cons.mp hE).resolve_left hNot) other hBefore

variable {s' : DeadlineRun} {due : List Deadline}

/-- A run that meets smooth writes only moves the lanes of a batch, each once. -/
theorem foldl_smooth (hNow : c.now < u64Max) (hBatch : Batch c s.queue due) (hMirrors : s.queue.Mirrors) (hOnce : Once c s)
    (hSmooth : c.Smooth s) :
    let s' := due.foldl c.handle s
    s'.queue.Mirrors ∧ Once c s' ∧ c.Smooth s' ∧ dueCount c.now s'.queue + due.length = dueCount c.now s.queue := by
  induction due generalizing s with
  | nil => exact ⟨hMirrors, hOnce, hSmooth, rfl⟩
  | cons d due ih =>
    obtain ⟨own, hDue⟩ := hBatch.each d (.head _)
    have hHandles := handle_handles hNow hDue
    have hRest := hHandles.batch hBatch
    have hMirrors' := hHandles.mirrors hMirrors
    rw [foldl_cons]
    generalize c.handle s d = middle at hHandles hRest hMirrors'
    cases hHandles with
    | moved hMoves hAccepts hWritten =>
      obtain ⟨hLast, hOnce', hSmooth', hCount⟩ := ih hRest hMirrors' (hOnce.moved hMoves hDue)
        ((hMoves.smooth_iff hDue hAccepts hWritten).mpr hSmooth)
      have hMoved := hMoves.dueCount hDue
      exact ⟨hLast, hOnce', hSmooth', by rw [length_cons]; dsimp only at hCount; omega⟩
    | refused hRefused => exact absurd hSmooth (not_smooth hDue hRefused)

/-- What a batch does to a deadline that is due: it is attempted, or it stays due. -/
theorem foldl_attempts (hNow : c.now < u64Max) (hBatch : Batch c s.queue due) (hMirrors : s.queue.Mirrors) :
    let s' := due.foldl c.handle s
    s'.queue.Mirrors ∧ ∃ new, s'.attempted = new ++ s.attempted ∧
      ∀ e other, Due c.now s.queue e other → e ∈ new ∨ ∃ other, Due c.now s'.queue e other := by
  induction due generalizing s with
  | nil => exact ⟨hMirrors, [], rfl, fun e other hDue => .inr ⟨other, hDue⟩⟩
  | cons d due ih =>
    obtain ⟨own, hOwn⟩ := hBatch.each d (.head _)
    have hHandles := handle_handles hNow hOwn
    obtain ⟨hLast, new, hNew, hKept⟩ := ih (hHandles.batch hBatch) (hHandles.mirrors hMirrors)
    rw [foldl_cons]
    have hLog := hHandles.log
    refine ⟨hLast, new ++ [d], by rw [hNew, hLog]; simp, fun e other hDue => ?_⟩
    by_cases hSame : e = d
    · exact .inl (by simp [hSame])
    have hStill : Due c.now (c.handle s d).queue e other := by
      generalize c.handle s d = middle at hHandles
      cases hHandles with
      | moved hMoves => exact (hMoves.due_iff hOwn).mpr ⟨hDue, hSame⟩
      | refused => exact hDue
    exact (hKept e other hStill).imp_left (by simp +contextual)

theorem checkDeadline_due (clock : Nat) (h : q.checkDeadline row = .ok d) :
    row.1 = (d.instant, d.key.intentId, d.key.relay) ∧ ∃ own, row.1.1 ≤ clock → Due clock q d own := by
  unfold Queue.checkDeadline at h
  split at h
  · cases h
  next own hFound =>
  simp only [bind_ok, refuseIf_ok, pure_ok, not_or, not_not] at h
  obtain ⟨-, ⟨hState, hRevision⟩, rfl⟩ := h
  exact ⟨rfl, own, fun hDue => ⟨hFound, rfl, hRevision, hState, hDue⟩⟩

theorem dueCount_eq_zero (h : ∀ d own, ¬ Due clock q d own) : dueCount clock q = 0 := by
  refine List.sum_eq_zero_iff_forall_eq_nat.mpr fun n hn => ?_
  obtain ⟨⟨⟨intentId, relay⟩, own⟩, hRow, rfl⟩ := mem_map.mp hn
  refine if_neg fun hDue => ?_
  obtain ⟨⟨instant, kind⟩, hState, hLe⟩ := (Option.any_eq_true _ _).mp hDue
  exact h ⟨instant, ⟨intentId, own.eventId, relay⟩, own.revision, kind⟩ own
    ⟨mem_toList.mp hRow, rfl, rfl, hState, of_decide_eq_true hLe⟩

/-- A read of a queue whose deadlines mirror its lanes yields due deadlines, and none only if none is due. -/
theorem dueDeadlines_batch (hMirrors : q.Mirrors) : ∃ due, q.dueDeadlines c.now 1024 = .ok due ∧ Batch c q due ∧
    (due = [] → ∀ e own, ¬ Due c.now q e own) := by
  obtain ⟨due, hRead⟩ := hMirrors.dueDeadlines c.now 1024 le_rfl
  refine ⟨due, hRead, ?_⟩
  simp only [Queue.dueDeadlines, bind_ok, mapM_ok] at hRead
  obtain ⟨-, -, hRows⟩ := hRead
  refine ⟨⟨fun deadline hMem => ?_, ?_⟩, fun hNone e own hDue => ?_⟩
  · obtain ⟨row, hRow, hCheck⟩ := Grouping.exists_of_mem_right hRows hMem
    obtain ⟨-, own, hOwn⟩ := checkDeadline_due c.now hCheck
    exact ⟨own, hOwn (of_decide_eq_true (mem_filter.mp (List.mem_of_mem_take hRow)).2)⟩
  · have hKeys : ((q.deadlines.toList.filter (·.1.1 ≤ c.now)).take 1024).Pairwise fun a b => a.1 ≠ b.1 :=
      ((q.deadlines.toList_pairwise.imp fun hLt hSame => by simp [hSame] at hLt).filter _).sublist (List.take_sublist _ _)
    refine Grouping.pairwise_of_forall₂ hRows (fun a b a' b' hA hB hNe hSame => hNe ?_) hKeys
    rw [(checkDeadline_due 0 hA).1, (checkDeadline_due 0 hB).1, hSame]
  · subst hNone
    have hEmpty := List.forall₂_nil_right_iff.mp hRows
    have hRow : q.deadlines[(e.instant, e.key.intentId, e.key.relay)]? = some (own.revision, e.kind) := by
      rw [hMirrors, show q.lanes[(e.key.intentId, e.key.relay)]? = some own from hDue.found, Option.bind_some,
        Lane.deadlineAt_some.mpr ⟨hDue.state, rfl⟩]
    have hMem : ((e.instant, e.key.intentId, e.key.relay), own.revision, e.kind) ∈
        q.deadlines.toList.filter (·.1.1 ≤ c.now) := mem_filter.mpr ⟨mem_toList.mpr hRow, decide_eq_true hDue.due⟩
    rw [(List.take_eq_nil_iff.mp hEmpty).resolve_left (by simp)] at hMem
    cases hMem

/-- A call that ends has attempted every deadline that was due. -/
theorem consumeDue_attempts (hNow : c.now < u64Max) (hMirrors : s.queue.Mirrors) (hEnds : (c.consumeDue fuel s).1 = true) :
    ∃ new, (c.consumeDue fuel s).2.attempted = new ++ s.attempted ∧ ∀ e own, Due c.now s.queue e own → e ∈ new := by
  induction fuel generalizing s with
  | zero => cases hEnds
  | succ fuel ih =>
    obtain ⟨due, hRead, hBatch, hNone⟩ := dueDeadlines_batch (c := c) hMirrors
    unfold consumeDue at hEnds ⊢
    rw [hRead] at hEnds ⊢
    cases due with
    | nil => exact ⟨[], rfl, fun e own hDue => absurd hDue (hNone rfl e own)⟩
    | cons first rest =>
      obtain ⟨hLast, new, hNew, hKept⟩ := foldl_attempts hNow hBatch hMirrors
      obtain ⟨later, hLater, hAll⟩ := ih hLast hEnds
      refine ⟨later ++ new, by rw [hLater, hNew, append_assoc], fun e own hDue => mem_append.mpr ?_⟩
      exact (hKept e own hDue).symm.imp_left fun ⟨own, hStill⟩ => hAll e own hStill

/-- A batch whose deadlines are each attempted once has moved all their lanes. -/
theorem foldl_once (hNow : c.now < u64Max) (hBatch : Batch c s.queue due) (hMirrors : s.queue.Mirrors) (hOnce : Once c s) :
    let s' := due.foldl c.handle s
    (Once c s' ∧ (c.Smooth s' → c.Smooth s)) ∨ ¬ s'.attempted.Nodup ∨
      ∃ e ∈ s'.attempted, ∃ own, Due c.now s'.queue e own := by
  induction due generalizing s with
  | nil => exact .inl ⟨hOnce, id⟩
  | cons d due ih =>
    obtain ⟨own, hDue⟩ := hBatch.each d (.head _)
    have hHandles := handle_handles hNow hDue
    have hRest := hHandles.batch hBatch
    have hMirrors' := hHandles.mirrors hMirrors
    rw [foldl_cons]
    generalize c.handle s d = middle at hHandles hRest hMirrors'
    cases hHandles with
    | moved hMoves hAccepts hWritten =>
      refine (ih hRest hMirrors' (hOnce.moved hMoves hDue)).imp_left (And.imp_right fun hLast hSmooth => ?_)
      exact (hMoves.smooth_iff hDue hAccepts hWritten).mp (hLast hSmooth)
    | refused hRefused =>
      -- the deadline is due after its attempt, so it is attempted again or left due
      obtain ⟨-, new, hNew, hKept⟩ := foldl_attempts hNow hRest hMirrors'
      rcases hKept d own hDue with hAgain | hStill
      · refine .inr (.inl fun hNodup => ?_)
        rw [hNew] at hNodup
        exact (List.nodup_append.mp hNodup).2.2 d hAgain d (.head _) rfl
      · exact .inr (.inr ⟨d, by rw [hNew]; simp, hStill⟩)

theorem smooth_of_ends (hNow : c.now < u64Max) (hMirrors : s.queue.Mirrors) (hOnce : Once c s)
    (hEnds : (c.consumeDue fuel s).1 = true) (hNodup : (c.consumeDue fuel s).2.attempted.Nodup) : c.Smooth s := by
  induction fuel generalizing s with
  | zero => cases hEnds
  | succ fuel ih =>
    obtain ⟨due, hRead, hBatch, hNone⟩ := dueDeadlines_batch (c := c) hMirrors
    unfold consumeDue at hEnds hNodup
    rw [hRead] at hEnds hNodup
    cases due with
    | nil =>
      refine ⟨fun e own hDue => absurd hDue (hNone rfl e own), fun n hn => ?_⟩
      rw [dueCount_eq_zero (hNone rfl)] at hn
      cases hn
    | cons first rest =>
      have hMirrors' := (foldl_attempts hNow hBatch hMirrors).1
      obtain ⟨new, hNew, hAll⟩ := consumeDue_attempts hNow hMirrors' hEnds
      rw [hNew] at hNodup
      rcases foldl_once hNow hBatch hMirrors hOnce with ⟨hOnce', hBack⟩ | hTwice | ⟨e, hMem, own, hDue⟩
      · exact hBack (ih hMirrors' hOnce' hEnds (hNew ▸ hNodup))
      · exact absurd (List.nodup_append.mp hNodup).2.1 hTwice
      · exact absurd rfl ((List.nodup_append.mp hNodup).2.2 e (hAll e own hDue) e hMem)

theorem ends_of_smooth (hNow : c.now < u64Max) (hMirrors : s.queue.Mirrors) (hOnce : Once c s) (hSmooth : c.Smooth s) :
    ∃ fuel, (c.consumeDue fuel s).1 = true ∧ (c.consumeDue fuel s).2.attempted.Nodup := by
  induction hCount : dueCount c.now s.queue using Nat.strong_induction_on generalizing s with
  | _ count ih =>
    obtain ⟨due, hRead, hBatch, hNone⟩ := dueDeadlines_batch (c := c) hMirrors
    cases due with
    | nil =>
      have hEnds : c.consumeDue 1 s = (true, { s with queue := c.scheduleReady s.queue }) := by rw [consumeDue, hRead]
      exact ⟨1, by rw [hEnds], by rw [hEnds]; exact hOnce.nodup⟩
    | cons first rest =>
      obtain ⟨hMirrors', hOnce', hSmooth', hLess⟩ := foldl_smooth hNow hBatch hMirrors hOnce hSmooth
      rw [length_cons] at hLess
      obtain ⟨fuel, hEnds, hNodup⟩ := ih _ (by omega) hMirrors' hOnce' hSmooth' rfl
      have hNext : c.consumeDue (fuel + 1) s = c.consumeDue fuel ((first :: rest).foldl c.handle s) := by
        rw [consumeDue, hRead]
      exact ⟨fuel + 1, hNext ▸ hEnds, hNext ▸ hNodup⟩

def closeWrite (now : Nat) (key : LaneKey) (q : Queue) : Queue :=
  (q.closeIntent key.intentId .allTerminal now).toOption.getD q

/-- A write is closed only when no lane of it has a deadline. -/
theorem closeWrite_cases (now : Nat) (key : LaneKey) (q : Queue) : closeWrite now key q = q ∨
    (∀ (relay : QueueRelayId) lane, q.lanes[(key.intentId, relay)]? = some lane → laneStateDeadline lane.state = none) ∧
      ∃ receipts sequence time, closeWrite now key q =
        { q.clearIntentDeadlines key.intentId with
          intents := q.intents.erase key.intentId, receipts, nextTerminalSequence := sequence, lastTerminalAt := time } := by
  unfold closeWrite
  cases hClose : q.closeIntent key.intentId .allTerminal now with
  | error => exact .inl rfl
  | ok closed =>
    unfold Queue.closeIntent at hClose
    split at hClose
    · cases hClose
      exact .inl rfl
    simp only [bind_ok, refuseIf_ok] at hClose
    obtain ⟨-, hShape, middle, hExplain, hMark⟩ := hClose
    cases hExplain
    obtain ⟨receipts, sequence, time, rfl⟩ := Queue.markTerminalReceipt_frame hMark
    refine .inr ⟨fun relay lane hLane => ?_, receipts, sequence, time, rfl⟩
    simp only [Queue.LaneShape.holds, Bool.not_eq_false, and_eq_true, all_eq_true] at hShape
    have hTerminal := hShape.2 lane.state (mem_map.mpr ⟨((key.intentId, relay), lane),
      mem_filter.mpr ⟨mem_toList.mpr hLane, by simp⟩, rfl⟩)
    cases hState : lane.state <;> simp_all [LaneState.isTerminal, laneStateDeadline]

/-- A call whose give-ups close a write with one intent. -/
def ordinary (now maxPublishAttempts : Nat) (fails : Nat → Bool) : DeadlineCall where
  now
  maxPublishAttempts
  fails
  relayUrl _ := []
  close _ := closeWrite now
  close_lanes _ key q := by
    rcases closeWrite_cases now key q with hSame | ⟨-, _, _, _, hClosed⟩
    · rw [hSame]
    · rw [hClosed]
      rfl
  close_details _ key q := by
    rcases closeWrite_cases now key q with hSame | ⟨-, _, _, _, hClosed⟩
    · rw [hSame]
    · rw [hClosed]
      rfl
  close_mirrors _ key q hMirrors := by
    rcases closeWrite_cases now key q with hSame | ⟨hNone, _, _, _, hClosed⟩
    · rwa [hSame]
    · rw [hClosed]
      intro instant intentId relay
      refine (hMirrors.clears key.intentId instant intentId relay).trans ?_
      split_ifs with hOwn
      · subst hOwn
        change none = (q.lanes[(key.intentId, relay)]?).bind _
        cases hLane : q.lanes[(key.intentId, relay)]? with
        | none => rfl
        | some lane => simp [Lane.deadlineAt, hNone relay lane hLane]
      · exact hMirrors instant intentId relay
  close_intents _ key q intentId relay lane hLane hDeadline := by
    rcases closeWrite_cases now key q with hSame | ⟨hNone, _, _, _, hClosed⟩
    · rw [hSame]
    · rw [hClosed]
      refine (get_erase ..).trans (if_neg ?_)
      rintro rfl
      simp [hNone relay lane hLane] at hDeadline
  scheduleReady := id

/-- The retry of a lane and the acknowledgement of another are overdue. -/
def overdue : Queue where
  intents := .insert ∅ 1 ⟨1, .event (.bare 7 9 1 1) "auto" .signed, 9, "", 0⟩
  lanes := .insert (.insert ∅ (1, 1) ⟨7, 3, 1, .transient 1 5 .ackTimeout none⟩) (1, 2) ⟨7, 4, 1, .inFlight 1 (.awaitingAck 6)⟩
  attemptDetails := .insert ∅ (1, 2, 1) ⟨some 1, none, none, none, none⟩
  deadlines := .insert (.insert ∅ (5, 1, 1) (3, .retryEligible)) (6, 1, 2) (4, .ackTimeout)

theorem overdue_mirrors : overdue.Mirrors := by
  intro instant intentId relay
  simp only [overdue, get_insert, Prod.mk.injEq, Std.ExtTreeMap.getElem?_empty]
  by_cases hFirst : 1 = intentId ∧ 1 = relay
  · obtain ⟨rfl, rfl⟩ := hFirst
    simp [Lane.deadlineAt, laneStateDeadline]
  · by_cases hSecond : 1 = intentId ∧ 2 = relay
    · obtain ⟨rfl, rfl⟩ := hSecond
      simp [Lane.deadlineAt, laneStateDeadline]
    · simp [hFirst, hSecond]

end DeadlineCall

end NmpStore.Engine
