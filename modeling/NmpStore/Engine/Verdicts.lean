import NmpStore.Store.LaneEffects

/-! # The verdict of a relay

An OK frame decides the lane that awaits it, a refused AUTH answer the lanes that wait for it.
-/

namespace NmpStore.Engine

inductive RelayAckClass where
  | acked
  | rejected
  | transient (cause : TransientCause)
  | waitingAuth
  deriving DecidableEq

def classifyRelayAck (status : Bool) (message : String) : RelayAckClass :=
  if status then .acked
  else
    let (before, rest) := message.toList.span (· ≠ ':')
    if rest = [] then .rejected
    else if before = "duplicate".toList then .acked
    else if before = "rate-limited".toList then .transient .relayRateLimited
    else if before = "error".toList then .transient .relayError
    else if before = "auth-required".toList then .waitingAuth
    else .rejected

def retryInitialSecs : Nat := 3

def retryMaxSecs : Nat := 300

def retryJitterMaxSecs : Nat := 5

/-- The wait doubles with every attempt, up to a bound, and is spread by a hash of the lane and the attempt. -/
def retryDelaySecs (relay : Bytes) (intentId : IntentId) (ordinal : Nat) : Nat :=
  let base := min (retryInitialSecs * 2 ^ min (ordinal - 1) 63 % 2 ^ 64) retryMaxSecs
  let hash : UInt64 := (beBytes 8 intentId ++ relay ++ beBytes 8 ordinal).foldl
    (fun hash byte => (hash ^^^ byte.toUInt64) * 0x100000001b3) 0xcbf29ce484222325
  min (base + hash.toNat % retryJitterMaxSecs) u64Max

theorem retryDelaySecs_pos (relay : Bytes) (intentId : IntentId) (ordinal : Nat) : 0 < retryDelaySecs relay intentId ordinal := by
  have hBase : ∀ exponent < 64, 0 < min (retryInitialSecs * 2 ^ exponent % 2 ^ 64) retryMaxSecs := by decide
  have hOwn := hBase (min (ordinal - 1) 63) (by omega)
  unfold retryDelaySecs
  exact Nat.lt_min.mpr ⟨Nat.add_pos_left hOwn _, by decide⟩

/-- The reducer at the arrival of a frame. -/
structure AckClock where
  clock : Nat
  maxPublishAttempts : Nat
  relayUrl : QueueRelayId → Bytes

namespace AckClock

def retryDelay (c : AckClock) (key : LaneKey) (ordinal : Nat) : Nat :=
  retryDelaySecs (c.relayUrl key.relay) key.intentId ordinal

open Queue

variable (c : AckClock) (q : Queue) (key : LaneKey) (message : String)

def settle (revision ordinal : Nat) : RelayAckClass → Result (Lane × Queue)
  | .acked => q.finishLaneAttempt key revision ordinal .acked c.clock
  | .rejected => q.finishLaneAttempt key revision ordinal (.rejected message) c.clock
  | .transient cause =>
    if ordinal ≥ c.maxPublishAttempts then q.finishLaneAttempt key revision ordinal .gaveUp c.clock
    else q.setLaneTransient key revision ordinal (c.clock + c.retryDelay key ordinal) cause (some message)
  | .waitingAuth => q.suspendLaneAttempt key revision ordinal c.clock .authRequired (some message) true

/-- What the frame commits, if a lane awaits it. -/
def handleWriteAck (status : Bool) : Option (Result (Lane × Queue)) :=
  match q.laneOf key with
  | .error _ => none
  | .ok lane =>
    match lane.state with
    | .inFlight ordinal (.awaitingAck _) =>
      if lane.eventId = key.eventId then some (c.settle q key message lane.revision ordinal (classifyRelayAck status message))
      else none
    | _ => none

/-- What a refused AUTH answer commits on a lane of its session. -/
def denyWriteLane (source : NmpStore.AuthDenialSource) : Option (Result (Lane × Queue)) :=
  match q.laneOf key with
  | .error _ => none
  | .ok lane => if lane.state = .waitingAuth then some (q.denyLaneAuth key lane.revision ⟨source, message⟩) else none

def ruled (ordinal : Nat) : RelayAckClass → LaneState
  | .acked => .terminal ordinal .acked
  | .rejected => .terminal ordinal (.rejected message)
  | .transient cause =>
    if ordinal ≥ c.maxPublishAttempts then .terminal ordinal .gaveUp
    else .transient ordinal (c.clock + c.retryDelay key ordinal) cause (some message)
  | .waitingAuth => .waitingAuth

/-- The classes whose transition keeps the text of the frame. -/
def keepsText (ordinal : Nat) : RelayAckClass → Prop
  | .acked => False
  | .transient _ => ordinal < c.maxPublishAttempts
  | _ => True

def Commits (state : LaneState) (out : Result (Lane × Queue)) : Prop :=
  ∃ lane q', out = .ok (lane, q') ∧ q'.laneOf key = pure lane ∧ lane.state = state

structure Found (q : Queue) (key : LaneKey) (lane : Lane) : Prop where
  found : q.laneOf key = pure lane
  event : lane.eventId = key.eventId
  revision : lane.revision < u64Max
  ordinal : lane.lastOrdinal ≤ u64Max

/-- An attempt is under way, as its start and its handoff have left it. -/
structure AwaitsAck (q : Queue) (key : LaneKey) (lane : Lane) : Prop extends Found q key lane where
  state : ∃ deadline, lane.state = .inFlight lane.lastOrdinal (.awaitingAck deadline)
  started : 0 < lane.lastOrdinal
  details : ∃ details, q.detailsOf key lane.lastOrdinal = pure details ∧ details.terminal = none

variable {c q key message} {l : Lane}

theorem Found.replaces (h : Found q key l) (base : Queue) (hB : base.lanes = q.lanes) (st : LaneState)
    (hS : st.ordinal = none ∨ st.ordinal = some l.lastOrdinal) :
    Commits key st (base.replaceLane key l.revision st) := by
  have hL : base.laneOf key = pure l := by simpa only [laneOf, hB] using h.found
  have hO : nextOrdinal l st = .ok l.lastOrdinal := by
    rcases hS with hS | hS <;> simp [nextOrdinal, hS, refuseIf, Nat.not_lt.mpr h.ordinal]
  let n : Lane := ⟨key.eventId, l.revision + 1, l.lastOrdinal, st⟩
  refine ⟨n, base.putLane key.intentId key.relay l n, ?_, ?_, rfl⟩
  · simp only [replaceLane, hL, hO, h.event, refuseIf, ne_eq, ite_not, gt_iff_lt, bind_pure_comp, pure_bind, ↓reduceIte,
      Nat.not_lt.mpr h.revision, Except.map_ok, n]
  · obtain ⟨deadlines, hP⟩ := base.putLane_frame key.intentId key.relay l n
    exact laneOf_ok.mpr (by simp [hP])

theorem AwaitsAck.finishes_iff (h : AwaitsAck q key l) (hU : TerminalOutcome.fromAttempt o = pure terminal) (nw : Nat) :
    Commits key (.terminal l.lastOrdinal terminal) (q.finishLaneAttempt key l.revision l.lastOrdinal o nw) ↔
      o.encode = .ok () := by
  obtain ⟨dt, hD, hN⟩ := h.details
  have he : o ≠ .started := by
    rintro rfl
    cases hU
  have hM : Commits key (.terminal l.lastOrdinal terminal) _ := h.replaces (q.putDetails key l.lastOrdinal
    { dt with finishedAt := some nw, terminal := some o }) rfl _ (.inr rfl)
  cases hE : o.encode with
  | ok u =>
    have hP : o.encode = pure u := hE
    simpa [finishLaneAttempt, h.found, h.event, hD, hN, he, hU, hP, refuseIf] using hM
  | error => simp [finishLaneAttempt, h.found, h.event, hD, hN, he, hU, hE, refuseIf, Commits]

theorem AwaitsAck.settles_iff (h : AwaitsAck q key l) (cl : RelayAckClass) :
    Commits key (c.ruled key message l.lastOrdinal cl) (c.settle q key message l.revision l.lastOrdinal cl) ↔
      (c.keepsText l.lastOrdinal cl → message.utf8ByteSize ≤ 4096) := by
  obtain ⟨dt, hD, -⟩ := h.details
  have hP := fun transient => h.replaces (q.putDetails key l.lastOrdinal { dt with transient := some transient }) rfl
  cases cl with
  | acked => exact iff_of_true ((h.finishes_iff rfl _).mpr rfl) False.elim
  | rejected => simpa [ruled, settle, keepsText, AttemptOutcome.encode] using h.finishes_iff (o := .rejected message) rfl c.clock
  | transient ca =>
    simp only [ruled, settle, keepsText]
    by_cases hM : l.lastOrdinal ≥ c.maxPublishAttempts
    · simpa [hM, Nat.not_lt.mpr hM] using (h.finishes_iff (o := .gaveUp) rfl c.clock).mpr rfl
    simp only [hM, if_false, Nat.lt_of_not_ge hM, true_imp_iff]
    by_cases hL : message.utf8ByteSize ≤ 4096
    · refine iff_of_true ?_ hL
      simpa [setLaneTransient, reasonTooLong, noteTransient, recordTransient,
        h.found, h.event, h.started, hD, Nat.not_lt.mpr hL, refuseIf] using hP _ _ (.inr rfl)
    · simp [Commits, setLaneTransient, reasonTooLong, hL, Nat.lt_of_not_ge hL, refuseIf]
  | waitingAuth =>
    by_cases hL : message.utf8ByteSize ≤ 4096
    · refine iff_of_true ?_ fun _ => hL
      simpa [settle, ruled, suspendLaneAttempt, reasonTooLong, recordTransient, waitingState,
        h.found, h.event, h.started.ne', hD, Nat.not_lt.mpr hL, refuseIf] using hP _ _ (.inl rfl)
    · simp [Commits, settle, keepsText, suspendLaneAttempt, reasonTooLong, hL, Nat.lt_of_not_ge hL, refuseIf]

theorem Found.denies_iff (h : Found q key l) (hS : l.state = .waitingAuth) (denial : AuthDenial) :
    Commits key (.terminal l.lastOrdinal (.authDenied denial)) (q.denyLaneAuth key l.revision denial) ↔
      denial.reason.utf8ByteSize ≤ 4096 := by
  by_cases hL : denial.reason.utf8ByteSize ≤ 4096
  · refine iff_of_true ?_ hL
    simpa [denyLaneAuth, deniedWith, h.found, h.event, hS, Nat.not_lt.mpr hL,
      refuseIf] using h.replaces q rfl _ (.inr rfl)
  · simp [Commits, denyLaneAuth, hL, Nat.lt_of_not_ge hL, refuseIf]

/-- A verdict is committed as its class says exactly if its text is not kept or has at most 4096 bytes. -/
theorem verdict_commits_iff (c : AckClock) (q : Queue) (key : LaneKey) (l : Lane) (message : String) :
    (AwaitsAck q key l → ∀ status, ∃ out, c.handleWriteAck q key message status = some out ∧
      (Commits key (c.ruled key message l.lastOrdinal (classifyRelayAck status message)) out ↔
        (c.keepsText l.lastOrdinal (classifyRelayAck status message) → message.utf8ByteSize ≤ 4096))) ∧
    (Found q key l → l.state = .waitingAuth → ∀ source, ∃ out, denyWriteLane q key message source = some out ∧
      (Commits key (.terminal l.lastOrdinal (.authDenied ⟨source, message⟩)) out ↔ message.utf8ByteSize ≤ 4096)) := by
  refine ⟨fun h status => ⟨_, ?_, h.settles_iff _⟩, fun h hS source => ⟨_, ?_, h.denies_iff hS ⟨source, message⟩⟩⟩
  · obtain ⟨ddl, hS⟩ := h.state
    simp [handleWriteAck, h.found, hS, h.event, pure, Except.pure]
  · simp [denyWriteLane, h.found, hS, pure, Except.pure]

def awaiting : Queue where
  lanes := .insert (.insert ∅ (1, 1) ⟨7, 2, 1, .inFlight 1 (.awaitingAck 30)⟩) (1, 2) ⟨7, 2, 1, .waitingAuth⟩
  attemptDetails := .insert ∅ (1, 1, 1) ⟨some 0, none, none, none, none⟩

theorem awaiting_awaits : AwaitsAck awaiting ⟨1, 7, 1⟩ ⟨7, 2, 1, .inFlight 1 (.awaitingAck 30)⟩ :=
  ⟨⟨by decide, rfl, by decide, by decide⟩, ⟨30, rfl⟩, by decide, ⟨some 0, none, none, none, none⟩, by decide, rfl⟩

theorem classify_error (tx : String) : classifyRelayAck false ("error:" ++ tx) = .transient .relayError := by
  simp [classifyRelayAck, List.span, List.span.loop]

def pad : Nat → String
  | 0 => "a"
  | n + 1 => pad n ++ pad n

theorem pad_size (n : Nat) : (pad n).utf8ByteSize = 2 ^ n := by
  induction n with
  | zero => rfl
  | succ n ih => rw [pad, String.utf8ByteSize_append, ih, ← Nat.two_mul, Nat.pow_succ']

/-- A relay that reports an error at length is not heard. -/
theorem long_text_blocks_verdict : ∃ (message : String) (error : PersistenceError),
    classifyRelayAck false message = .transient .relayError ∧
      handleWriteAck ⟨10, 3, fun _ => []⟩ awaiting ⟨1, 7, 1⟩ message false = some (.error error) := by
  obtain ⟨message, hC, hL⟩ : ∃ message, classifyRelayAck false message = .transient .relayError ∧
      4096 < message.utf8ByteSize := ⟨_, classify_error (pad 12), by rw [String.utf8ByteSize_append, pad_size]; decide⟩
  refine ⟨message, ⟨"transient raw reason exceeds 4096 bytes"⟩, hC, ?_⟩
  rw [handleWriteAck, awaiting_awaits.found]
  simp [hC, settle, setLaneTransient, reasonTooLong, hL, refuseIf]
  rfl

theorem verdict_commits_iff_busy :
    (∃ out, handleWriteAck ⟨10, 3, fun _ => []⟩ awaiting ⟨1, 7, 1⟩ ("error:" ++ "busy") false = some out ∧
      Commits ⟨1, 7, 1⟩ (.transient 1 13 .relayError (some ("error:" ++ "busy"))) out) ∧
    ∃ out, denyWriteLane awaiting ⟨1, 7, 2⟩ "no" .relay = some out ∧
      Commits ⟨1, 7, 2⟩ (.terminal 1 (.authDenied ⟨.relay, "no"⟩)) out := by
  obtain ⟨out, ho, hI⟩ := (verdict_commits_iff ⟨10, 3, fun _ => []⟩ awaiting _ _ ("error:" ++ "busy")).1 awaiting_awaits false
  obtain ⟨denied, hD, hd⟩ := (verdict_commits_iff ⟨10, 3, fun _ => []⟩ awaiting ⟨1, 7, 2⟩
    ⟨7, 2, 1, .waitingAuth⟩ "no").2 ⟨by decide, rfl, by decide, by decide⟩ rfl .relay
  rw [classify_error] at hI
  exact ⟨⟨out, ho, hI.mpr fun _ => by decide⟩, denied, hD, hd.mpr (by decide)⟩

end AckClock

end NmpStore.Engine
