import NmpStore.Coverage.Eose
import NmpStore.Engine.CoordinateCoverage
import NmpStore.Semantic.Ops

/-! # The events behind committed coverage

An event frame is stored with the frames of its batch, unless the door for semantic successors takes it. A batch that
fails to commit withholds coverage from the open requests of its subscriptions, and from no request sent later; the
door withholds nothing on its own.
-/

namespace NmpStore.Engine

open Coverage (CompletedAttribution SubId WireToken World)
open Semantic (SemanticInstallOutcome SemanticOperation SemanticRefusal SemanticResourceState)

/-- What became of an event: committed, known before as a generation of its own resource, given up without a word, or
not committed with coverage withheld for it. -/
inductive FrameFate where
  | committed
  | known
  | dropped
  | poisons
  deriving DecidableEq

def FrameFate.Held (fate : FrameFate) : Prop := fate = .committed ∨ fate = .known

def IngestResult.fate : IngestResult → FrameFate
  | .eventCommitFailed => .poisons
  | _ => .committed

/-- The answers the door gets for one event. Every read or write of the store may fail on its own. -/
structure SuccessorAnswers where
  snapshot : Result (Option SemanticResourceState)
  recoverAttempts : IntentId → Result (List EventId)
  /-- The intent of the pending write under the receipt of an intent. -/
  pendingIntent : IntentId → Option IntentId
  /-- The program and the format of the registered materializer. -/
  registration : Nat × Nat → Option (Nat × Nat)
  /-- The kind and the identifier of the event it builds. -/
  materialized : Option (Nat × String)
  laterSnapshot : Result (Option SemanticResourceState)
  install : Result SemanticInstallOutcome
  retract : Result Unit
  ordinary : IngestResult

namespace SuccessorAnswers

def echo (answers : SuccessorAnswers) (id : EventId) : List IntentId → Option FrameFate
  | [] => none
  | member :: rest =>
    match answers.recoverAttempts member with
    | .error _ => some .dropped
    | .ok attempts => if id ∈ attempts then some .known else answers.echo id rest

def members (resource : SemanticResourceState) : List IntentId := resource.generation.elim [] (·.members.toList)

def membersPending (answers : SuccessorAnswers) (resource : SemanticResourceState) : Bool :=
  (members resource).all fun member => answers.pendingIntent member = some member

/-- The store commits before the resolver reacts, and the reaction may fail. -/
def installed (answers : SuccessorAnswers) : FrameFate :=
  match answers.install, answers.retract with
  | .error _, _ => .dropped
  | .ok .stale, .ok _ => answers.ordinary.fate
  | .ok .stale, .error _ => .dropped
  | .ok (.refused _), _ => .dropped
  | .ok _, _ => .committed

def installMaterializedReplaceableSuccessor (answers : SuccessorAnswers) (program : Nat × Nat) (source : Event) : FrameFate :=
  match answers.laterSnapshot with
  | .error _ => .dropped
  | .ok none => answers.ordinary.fate
  | .ok (some resource) =>
    if resource.operations.any fun operation => (operation.program, operation.format) ≠ program then .dropped
    else if answers.materialized ≠ some (source.kind, source.tags.identifier.getD "") then .dropped
    else if !answers.membersPending resource then .dropped
    else if u64Max ≤ source.createdAt ∨ (resource.generation.any fun generation => u64Max ≤ generation.createdAt) then .dropped
    else answers.installed

/-- Nothing, when the event is left to the ordinary door. -/
def installSemanticSourceSuccessor (answers : SuccessorAnswers) (source : Event) : Option FrameFate :=
  if !(isReplaceableKind source.kind || isAddressableKind source.kind) then none
  else match answers.snapshot with
    | .error _ => some .dropped
    | .ok none => none
    | .ok (some resource) =>
      match resource.operations with
      | [] => none
      | first :: _ =>
        if resource.generation.any fun generation => generation.materialization.eventId = source.id then none
        else match answers.echo source.id (members resource) with
          | some fate => some fate
          | none =>
            if !answers.membersPending resource then some .dropped
            else match answers.registration (first.program, first.format) with
              | none => some .dropped
              | some program => some (answers.installMaterializedReplaceableSuccessor program source)

/-- No attempt of the members published the event. -/
def Unpublished (answers : SuccessorAnswers) (id : EventId) (members : List IntentId) : Prop :=
  ∀ member ∈ members, ∃ attempts, answers.recoverAttempts member = .ok attempts ∧ id ∉ attempts

/-- The door finds a resource with operations at the coordinate, and the event is not its current generation. -/
structure Meets (answers : SuccessorAnswers) (source : Event) (resource : SemanticResourceState)
    (first : SemanticOperation) : Prop where
  replaceable : (isReplaceableKind source.kind || isAddressableKind source.kind) = true
  snapshot : answers.snapshot = .ok (some resource)
  first : resource.operations.head? = some first
  other : ∀ generation, resource.generation = some generation → generation.materialization.eventId ≠ source.id

/-- What the resource, read again, and the materialized event must be for an installation to be tried. -/
structure Fit (answers : SuccessorAnswers) (program : Nat × Nat) (source : Event) (resource : SemanticResourceState) :
    Prop where
  snapshot : answers.laterSnapshot = .ok (some resource)
  program : ∀ operation ∈ resource.operations, (operation.program, operation.format) = program
  materialized : answers.materialized = some (source.kind, source.tags.identifier.getD "")
  pending : answers.membersPending resource
  sourceTime : source.createdAt < u64Max
  priorTime : ∀ generation, resource.generation = some generation → generation.createdAt < u64Max

/-- The answers with which the successor of an event is given up. -/
inductive LosesSuccessor (answers : SuccessorAnswers) (program : Nat × Nat) (source : Event) : Prop
  | unread {error : PersistenceError} (h : answers.laterSnapshot = .error error)
  | unfit {resource : SemanticResourceState} (h : answers.laterSnapshot = .ok (some resource))
      (hUnfit : ¬ answers.Fit program source resource)
  | failed {resource : SemanticResourceState} {error : PersistenceError} (h : answers.Fit program source resource)
      (hInstall : answers.install = .error error)
  | refused {resource : SemanticResourceState} {refusal : SemanticRefusal} (h : answers.Fit program source resource)
      (hInstall : answers.install = .ok (.refused refusal))
  | unretracted {resource : SemanticResourceState} {error : PersistenceError} (h : answers.Fit program source resource)
      (hInstall : answers.install = .ok .stale) (hRetract : answers.retract = .error error)

/-- The answers with which the door takes an event and hands it to no transaction. -/
inductive GivesUp (answers : SuccessorAnswers) (source : Event) : Prop
  | unread {error : PersistenceError} (hKind : (isReplaceableKind source.kind || isAddressableKind source.kind) = true)
      (h : answers.snapshot = .error error)
  | attemptsUnread {resource : SemanticResourceState} {first : SemanticOperation} {earlier later : List IntentId}
      {member : IntentId} {error : PersistenceError} (h : answers.Meets source resource first)
      (hMembers : members resource = earlier ++ member :: later) (hEarlier : answers.Unpublished source.id earlier)
      (hAttempts : answers.recoverAttempts member = .error error)
  | unowned {resource : SemanticResourceState} {first : SemanticOperation} (h : answers.Meets source resource first)
      (hNew : answers.Unpublished source.id (members resource)) (hPending : answers.membersPending resource = false)
  | unregistered {resource : SemanticResourceState} {first : SemanticOperation}
      (h : answers.Meets source resource first) (hNew : answers.Unpublished source.id (members resource))
      (hPending : answers.membersPending resource) (hProgram : answers.registration (first.program, first.format) = none)
  | unmaterialized {resource : SemanticResourceState} {first : SemanticOperation} {program : Nat × Nat}
      (h : answers.Meets source resource first) (hNew : answers.Unpublished source.id (members resource))
      (hPending : answers.membersPending resource)
      (hProgram : answers.registration (first.program, first.format) = some program)
      (hLost : answers.LosesSuccessor program source)

end SuccessorAnswers

structure EventDelivery where
  session : RelaySessionKey
  wire : WireToken
  event : Event
  answers : SuccessorAnswers

namespace EventDelivery

def door (delivery : EventDelivery) : Option FrameFate := delivery.answers.installSemanticSourceSuccessor delivery.event

def fate (result : IngestResult) (delivery : EventDelivery) : FrameFate := delivery.door.getD result.fate

end EventDelivery

/-- The events the door takes come first, one by one; the others are committed together. -/
def ingestRelayObservationsGoverned (w : World) (batch : List EventDelivery) (result : IngestResult) : World :=
  ((batch.filter (·.door.isSome) ++ batch.filter (·.door.isNone)).filter fun delivery => delivery.fate result = .poisons).foldl
    (fun w delivery => w.commitFailed delivery.session delivery.wire) w

/-- Nothing is committed for a poisoned completion, or when the batch of claims fails to commit. -/
def persistAttributedCompletion (completed : CompletedAttribution) (recorded : Result Unit) :
    Option (List (CoverageKey × CoverageInterval)) := do
  let claims ← completed.intoEligibleClaims
  if claims = [] then some [] else recorded.toOption.map fun _ => claims

/-- An event frame as it came, with the number of requests sent before it and the result of its batch. -/
structure ReceivedEvent where
  sends : Nat
  delivery : EventDelivery
  result : IngestResult

namespace ReceivedEvent

def sub (frame : ReceivedEvent) : SubId := .ofWire frame.delivery.session frame.delivery.wire

def fate (frame : ReceivedEvent) : FrameFate := frame.delivery.fate frame.result

end ReceivedEvent

structure CoverageWorld where
  world : World := {}
  received : List ReceivedEvent := []

namespace CoverageWorld

def events (c : CoverageWorld) (batch : List EventDelivery) (result : IngestResult) : CoverageWorld where
  world := ingestRelayObservationsGoverned c.world batch result
  received := c.received ++ batch.map fun delivery =>
    ⟨c.world.engine.nextSendId, delivery, result⟩

inductive Reachable : CoverageWorld → Prop
  | start : Reachable {}
  | events {c : CoverageWorld} (batch : List EventDelivery) (result : IngestResult) (before : Reachable c) :
      Reachable (c.events batch result)
  | step {c : CoverageWorld} {world : World} (before : Reachable c) (step : World.Step c.world world) :
      Reachable { c with world }

/-- The frames of a subscription that a claim of an answer to it speaks about. -/
structure Claimed (c : CoverageWorld) (sub : SubId) (selected : CoverageKey → Event → Bool)
    (claim : CoverageKey × CoverageInterval) (frame : ReceivedEvent) : Prop where
  received : frame ∈ c.received
  sub : frame.sub = sub
  selected : selected claim.1 frame.delivery.event = true
  first : claim.2.first ≤ frame.delivery.event.createdAt
  through : frame.delivery.event.createdAt ≤ claim.2.through

end CoverageWorld

def FailedFor (w : World) (revision : Nat) (sub : SubId) : Prop :=
  ∀ sent ∈ w.sent revision, sent.sub = sub → sent.failed = true

structure KeepsFailures (w w' : World) : Prop where
  next : w.engine.nextSendId ≤ w'.engine.nextSendId
  failed : ∀ revision < w.engine.nextSendId, ∀ sub, FailedFor w revision sub → FailedFor w' revision sub

variable {w w' w'' : World} {c : CoverageWorld}

theorem KeepsFailures.of_sent (hN : w'.engine.nextSendId = w.engine.nextSendId) (hS : w'.sent = w.sent) :
    KeepsFailures w w' :=
  ⟨hN.ge, fun _ _ _ h sn hI => h sn (hS ▸ hI)⟩

theorem KeepsFailures.trans (h : KeepsFailures w w') (h' : KeepsFailures w' w'') : KeepsFailures w w'' :=
  ⟨h.next.trans h'.next, fun r hB s hF =>
    h'.failed r (hB.trans_le h.next) s (h.failed r hB s hF)⟩

theorem commitFailed_failedFor (h : FailedFor w r s ∨ s = .ofWire k wire) :
    FailedFor (w.commitFailed k wire) r s := by
  intro sn hS hB
  obtain ⟨o, hO, rfl⟩ := map_eq_some_iff.mp hS
  split_ifs at hB ⊢ with hH
  · rfl
  rcases h with h | rfl
  · exact h o hO hB
  · exact absurd hB hH

theorem commitFailed_keepsFailures (w : World) (k : RelaySessionKey) (wr : WireToken) :
    KeepsFailures w (w.commitFailed k wr) :=
  ⟨(w.engine.poisonEventCommitFailure_poisons k wr).nextSendId.ge, fun _ _ _ h => commitFailed_failedFor (.inl h)⟩

theorem step_keepsFailures (st : World.Step w w') (hT : World.Tracks w) : KeepsFailures w w' := by
  cases st with
  | send s fl cl ho hC =>
    refine ⟨?_, fun r hB o h sn hS => h sn ((update_of_ne hB.ne _ _).symm.trans hS)⟩
    show _ ≤ (w.engine.nextSendId + 1) % 2 ^ 64
    rw [Nat.mod_eq_of_lt hC]
    exact Nat.le_succ _
  | extend s hh ad => exact .of_sent (w.engine.modifyCurrent_keepsSends s hh _).nextSendId rfl
  | remove s hh rm => exact .of_sent (w.engine.modifyCurrent_keepsSends s hh _).nextSendId rfl
  | discardRevision s r => exact .of_sent (w.engine.discardSendRevision_frame s r).1 rfl
  | discardSub s => exact .of_sent rfl rfl
  | clearSession k => exact .of_sent rfl rfl
  | commitFailed k wr => exact commitFailed_keepsFailures w k wr
  | eose k wr et r hA hE =>
    rcases hT.attributeEose k wr et with ⟨-, hN⟩ | ⟨head, rest, -, hs⟩
    · cases hE.symm.trans hN
      exact .of_sent rfl rfl
    · cases hE.symm.trans hs
      exact .of_sent rfl rfl

/-- Every request of a subscription that a failing event came for is marked, and stays so. -/
theorem foldl_commitFailed (fl : List EventDelivery) (w : World) (hR : World.Reachable w) :
    let w' := fl.foldl (fun w d => w.commitFailed d.session d.wire) w
    World.Reachable w' ∧ KeepsFailures w w' ∧ ∀ d ∈ fl, ∀ r < w.engine.nextSendId,
      FailedFor w' r (.ofWire d.session d.wire) := by
  induction fl generalizing w with
  | nil => exact ⟨hR, .of_sent rfl rfl, fun _ h => absurd h not_mem_nil⟩
  | cons d rs ih =>
    have hF := commitFailed_keepsFailures w d.session d.wire
    obtain ⟨hR', hK, hr⟩ := ih _ (.next hR (.commitFailed d.session d.wire))
    refine ⟨hR', hF.trans hK, fun o hI r hB => ?_⟩
    have hB' := hB.trans_le hF.next
    rcases mem_cons.mp hI with rfl | hI
    · exact hK.failed r hB' _ (commitFailed_failedFor (.inr rfl))
    · exact hr o hI r hB'

namespace CoverageWorld

structure Remembers (c : CoverageWorld) : Prop where
  reachable : World.Reachable c.world
  fresh : ∀ frame ∈ c.received, frame.sends ≤ c.world.engine.nextSendId
  failed : ∀ frame ∈ c.received, frame.fate = .poisons → ∀ revision < frame.sends, FailedFor c.world revision frame.sub

theorem Remembers.keeps (h : c.Remembers) (hR : World.Reachable w) (hK : KeepsFailures c.world w) :
    Remembers { c with world := w } :=
  ⟨hR, fun fr hI => (h.fresh fr hI).trans hK.next, fun fr hI hF r hB =>
    hK.failed r (hB.trans_le (h.fresh fr hI)) _ (h.failed fr hI hF r hB)⟩

theorem Remembers.events (h : c.Remembers) (bt : List EventDelivery) (rs : IngestResult) :
    Remembers (c.events bt rs) := by
  obtain ⟨hR, hK, hM⟩ := foldl_commitFailed ((bt.filter (·.door.isSome) ++
    bt.filter (·.door.isNone)).filter fun d => d.fate rs = .poisons) c.world h.reachable
  have hO := h.keeps hR hK
  refine ⟨hR, fun fr hI => ?_, fun fr hI hF => ?_⟩
  · rcases mem_append.mp hI with hI | hI
    · exact hO.fresh fr hI
    · obtain ⟨d, -, rfl⟩ := mem_map.mp hI
      exact hK.next
  rcases mem_append.mp hI with hI | hI
  · exact hO.failed fr hI hF
  obtain ⟨d, hd, rfl⟩ := mem_map.mp hI
  refine hM d (mem_filter.mpr ⟨?_, decide_eq_true hF⟩)
  cases hD : d.door <;> simp [hd, hD]

theorem Reachable.remembers (h : Reachable c) : c.Remembers := by
  induction h with
  | start => exact ⟨.start, fun _ h => absurd h not_mem_nil, fun _ h => absurd h not_mem_nil⟩
  | events bt rs _ ih => exact ih.events bt rs
  | step _ step ih => exact ih.keeps (.next ih.reachable step) (step_keepsFailures step ih.reachable.tracks)

end CoverageWorld

theorem persistAttributedCompletion_some (h : persistAttributedCompletion completed recorded = some claims) :
    completed.intoEligibleClaims = some claims := by
  obtain ⟨el, hE, h⟩ := bind_eq_some_iff.mp h
  split_ifs at h with hZ
  · cases h
    exact hZ ▸ hE
  · obtain ⟨_, -, rfl⟩ := map_eq_some_iff.mp h
    exact hE

namespace SuccessorAnswers

variable {answers : SuccessorAnswers} {source : Event}

theorem echo_none {own : List IntentId} :
    answers.echo source.id own = none ↔ answers.Unpublished source.id own := by
  induction own with
  | nil => simp [echo, Unpublished]
  | cons member rest ih =>
    unfold Unpublished at ih ⊢
    rw [echo]
    split
    · simp [*]
    next attempts hAttempts =>
      split_ifs with hPublished <;> simp [*]

theorem echo_dropped {own : List IntentId} :
    answers.echo source.id own = some .dropped ↔ ∃ earlier member later, ∃ error,
      own = earlier ++ member :: later ∧ answers.Unpublished source.id earlier ∧
        answers.recoverAttempts member = .error error := by
  induction own with
  | nil => simp [echo]
  | cons member rest ih =>
    rw [echo]
    split
    next error hError =>
      exact iff_of_true rfl ⟨[], member, rest, error, rfl, by simp [Unpublished], hError⟩
    next attempts hAttempts =>
      split_ifs with hPublished
      · refine iff_of_false (by simp) ?_
        rintro ⟨_ | ⟨head, earlier⟩, failing, later, error, hSplit, hEarlier, hError⟩
        · cases hSplit
          cases hAttempts.symm.trans hError
        · cases hSplit
          obtain ⟨own, hOwn, hNot⟩ := hEarlier _ (.head _)
          cases hAttempts.symm.trans hOwn
          exact hNot hPublished
      · rw [ih]
        constructor
        · rintro ⟨earlier, failing, later, error, rfl, hEarlier, hError⟩
          exact ⟨member :: earlier, failing, later, error, rfl,
            List.forall_mem_cons.mpr ⟨⟨attempts, hAttempts, hPublished⟩, hEarlier⟩, hError⟩
        · rintro ⟨_ | ⟨head, earlier⟩, failing, later, error, hSplit, hEarlier, hError⟩
          · cases hSplit
            cases hAttempts.symm.trans hError
          · cases hSplit
            exact ⟨earlier, failing, later, error, rfl, (List.forall_mem_cons.mp hEarlier).2, hError⟩

theorem installed_dropped : answers.installed = .dropped ↔
    (∃ error, answers.install = .error error) ∨ (∃ refusal, answers.install = .ok (.refused refusal)) ∨
      answers.install = .ok .stale ∧ ∃ error, answers.retract = .error error := by
  unfold installed
  cases hInstall : answers.install with
  | error error => simp
  | ok outcome =>
    cases outcome <;> cases hRetract : answers.retract <;> simp
    cases answers.ordinary <;> simp [IngestResult.fate]

theorem fate_ne_dropped (result : IngestResult) : result.fate ≠ .dropped := by
  cases result <;> simp [IngestResult.fate]

theorem installMaterialized_fit {program : Nat × Nat} (h : answers.Fit program source resource) :
    answers.installMaterializedReplaceableSuccessor program source = answers.installed := by
  have hPrior : ¬ resource.generation.any (fun generation => u64Max ≤ generation.createdAt) := by
    simpa [Option.any_eq_true] using h.priorTime
  unfold installMaterializedReplaceableSuccessor
  simp only [h.snapshot]
  rw [if_neg (by simpa using h.program), if_neg (not_not.mpr h.materialized), if_neg (by simp [h.pending]),
    if_neg (not_or.mpr ⟨Nat.not_le.mpr h.sourceTime, hPrior⟩)]

theorem installMaterialized_unfit {program : Nat × Nat} (hSnapshot : answers.laterSnapshot = .ok (some resource))
    (h : ¬ answers.Fit program source resource) :
    answers.installMaterializedReplaceableSuccessor program source = .dropped := by
  unfold installMaterializedReplaceableSuccessor
  simp only [hSnapshot]
  split_ifs with hProgram hMaterialized hPending hTime <;> try rfl
  obtain ⟨hSource, hPrior⟩ := not_or.mp hTime
  exact absurd ⟨hSnapshot, by simpa using hProgram, not_not.mp hMaterialized, by simpa using hPending,
    Nat.not_le.mp hSource, by simpa [Option.any_eq_true] using hPrior⟩ h

theorem installMaterialized_dropped {program : Nat × Nat} :
    answers.installMaterializedReplaceableSuccessor program source = .dropped ↔ answers.LosesSuccessor program source := by
  constructor
  · intro hDropped
    cases hSnapshot : answers.laterSnapshot with
    | error error => exact .unread hSnapshot
    | ok found =>
      cases found with
      | none =>
        unfold installMaterializedReplaceableSuccessor at hDropped
        simp only [hSnapshot] at hDropped
        exact absurd hDropped (fate_ne_dropped _)
      | some resource =>
        by_cases hFit : answers.Fit program source resource
        · rw [installMaterialized_fit hFit, installed_dropped] at hDropped
          rcases hDropped with ⟨_, hInstall⟩ | ⟨_, hInstall⟩ | ⟨hInstall, _, hRetract⟩
          · exact .failed hFit hInstall
          · exact .refused hFit hInstall
          · exact .unretracted hFit hInstall hRetract
        · exact .unfit hSnapshot hFit
  · rintro (hSnapshot | ⟨hSnapshot, hUnfit⟩ | ⟨hFit, hInstall⟩ | ⟨hFit, hInstall⟩ | ⟨hFit, hInstall, hRetract⟩)
    · simp [installMaterializedReplaceableSuccessor, hSnapshot]
    · exact installMaterialized_unfit hSnapshot hUnfit
    · exact (installMaterialized_fit hFit).trans (installed_dropped.mpr (.inl ⟨_, hInstall⟩))
    · exact (installMaterialized_fit hFit).trans (installed_dropped.mpr (.inr (.inl ⟨_, hInstall⟩)))
    · exact (installMaterialized_fit hFit).trans (installed_dropped.mpr (.inr (.inr ⟨hInstall, _, hRetract⟩)))

theorem install_meets (h : answers.Meets source resource first) :
    answers.installSemanticSourceSuccessor source =
      match answers.echo source.id (members resource) with
      | some fate => some fate
      | none =>
        if !answers.membersPending resource then some .dropped
        else match answers.registration (first.program, first.format) with
          | none => some .dropped
          | some program => some (answers.installMaterializedReplaceableSuccessor program source) := by
  obtain ⟨rest, hFirst⟩ := List.head?_eq_some_iff.mp h.first
  have hOther : ¬ resource.generation.any (fun generation => generation.materialization.eventId = source.id) := by
    simpa [Option.any_eq_true] using h.other
  unfold installSemanticSourceSuccessor
  simp only [h.replaceable, Bool.not_true, Bool.false_eq_true, if_false, h.snapshot, hFirst, hOther]

theorem install_unmet (hSnapshot : ∀ error, answers.snapshot ≠ .error error)
    (h : ∀ resource first, ¬ answers.Meets source resource first) :
    answers.installSemanticSourceSuccessor source = none := by
  unfold installSemanticSourceSuccessor
  split_ifs with hKind
  · rfl
  cases hRead : answers.snapshot with
  | error error => exact absurd hRead (hSnapshot error)
  | ok found =>
    cases found with
    | none => rfl
    | some resource =>
      cases hOperations : resource.operations with
      | nil => simp only [hOperations]
      | cons first rest =>
        simp only [hOperations]
        refine if_pos (by_contra fun hOther => h resource first ⟨by simpa only [Bool.not_eq_true',
          Bool.not_eq_false] using hKind, hRead, by simp [hOperations], ?_⟩)
        simpa [Option.any_eq_true] using hOther

/-- The door loses an event exactly when it is given one of the answers above. -/
theorem install_dropped :
    answers.installSemanticSourceSuccessor source = some .dropped ↔ answers.GivesUp source := by
  constructor
  · intro hDropped
    by_cases hMeets : ∃ resource first, answers.Meets source resource first
    · obtain ⟨resource, first, hMeets⟩ := hMeets
      rw [install_meets hMeets] at hDropped
      split at hDropped
      next fate hEcho =>
        obtain ⟨earlier, member, later, error, hMembers, hEarlier, hError⟩ := echo_dropped.mp (hEcho.trans hDropped)
        exact .attemptsUnread hMeets hMembers hEarlier hError
      next hEcho =>
        have hNew := echo_none.mp hEcho
        split_ifs at hDropped with hPending
        · exact .unowned hMeets hNew (by simpa using hPending)
        split at hDropped
        · next hProgram => exact .unregistered hMeets hNew (by simpa using hPending) hProgram
        · next hProgram =>
          exact .unmaterialized hMeets hNew (by simpa using hPending) hProgram
            (installMaterialized_dropped.mp (Option.some.inj hDropped))
    · cases hRead : answers.snapshot with
      | error error =>
        by_cases hKind : (isReplaceableKind source.kind || isAddressableKind source.kind) = true
        · exact .unread hKind hRead
        · simp [installSemanticSourceSuccessor, hKind] at hDropped
      | ok found =>
        rw [install_unmet (by simp [hRead]) (by simpa using hMeets)] at hDropped
        cases hDropped
  · rintro (⟨hKind, hRead⟩ | ⟨hMeets, hMembers, hEarlier, hError⟩ | ⟨hMeets, hNew, hPending⟩ |
      ⟨hMeets, hNew, hPending, hProgram⟩ | ⟨hMeets, hNew, hPending, hProgram, hLost⟩)
    · simp [installSemanticSourceSuccessor, hKind, hRead]
    · rw [install_meets hMeets, echo_dropped.mpr ⟨_, _, _, _, hMembers, hEarlier, hError⟩]
    · simp [install_meets hMeets, echo_none.mpr hNew, hPending]
    · simp [install_meets hMeets, echo_none.mpr hNew, hPending, hProgram]
    · simp [install_meets hMeets, echo_none.mpr hNew, hPending, hProgram, installMaterialized_dropped.mpr hLost]

end SuccessorAnswers

theorem EventDelivery.fate_dropped (delivery : EventDelivery) (result : IngestResult) :
    delivery.fate result = .dropped ↔ delivery.answers.GivesUp delivery.event := by
  rw [← SuccessorAnswers.install_dropped, EventDelivery.fate, EventDelivery.door]
  cases delivery.answers.installSemanticSourceSuccessor delivery.event with
  | none => simp [SuccessorAnswers.fate_ne_dropped]
  | some fate => simp

/-- The event of a frame is left to the ordinary ingest, by the door or past it, and its transaction fails. -/
def ReceivedEvent.CommitFails (frame : ReceivedEvent) : Prop :=
  frame.delivery.door = some .poisons ∨ frame.delivery.door = none ∧ frame.result = .eventCommitFailed

theorem ReceivedEvent.fate_poisons {frame : ReceivedEvent} : frame.fate = .poisons ↔ frame.CommitFails := by
  unfold ReceivedEvent.fate ReceivedEvent.CommitFails EventDelivery.fate
  cases frame.delivery.door with
  | none => cases frame.result <;> simp [IngestResult.fate]
  | some fate => simp

/-- Coverage committed for an answer speaks only about events that the store has held exactly when, of the frames it
speaks about, none was met by the door with answers it gives an event up for, and none that came before the answered
request was sent failed to commit. -/
theorem committed_coverage_honest_iff (h : c.Reachable) {eoseTime revision : Nat}
    (hAwaited : revision ∈ c.world.awaited (.ofWire session wire)) {engine : Coverage.AttributionState}
    (hEose : c.world.engine.attributeEose session wire eoseTime = .ok (some completed, engine))
    (hCommit : persistAttributedCompletion completed recorded = some claims) (selected : CoverageKey → Event → Bool) :
    ∀ claim ∈ claims, (∀ frame, c.Claimed (.ofWire session wire) selected claim frame → frame.fate.Held) ↔
      ∀ frame, c.Claimed (.ofWire session wire) selected claim frame →
        ¬ frame.delivery.answers.GivesUp frame.delivery.event ∧ (frame.sends ≤ revision → ¬ frame.CommitFails) := by
  intro claim _
  have hRemembers := h.remembers
  obtain ⟨sent, _, -, hSent, -, hProves, -, hUnfailed, -⟩ := hRemembers.reachable.tracks.eligible hAwaited hEose
    (persistAttributedCompletion_some hCommit)
  have hSince : ∀ frame, c.Claimed (.ofWire session wire) selected claim frame → revision < frame.sends →
      frame.fate ≠ .poisons := by
    intro frame hClaimed hSince hPoisons
    have hFailed := hRemembers.failed frame hClaimed.received hPoisons revision hSince sent hSent
      (hProves.sub.trans hClaimed.sub.symm)
    simp [hUnfailed] at hFailed
  refine forall₂_congr fun frame hClaimed => ?_
  rw [← EventDelivery.fate_dropped _ frame.result, ← ReceivedEvent.fate_poisons]
  change _ ↔ ¬ frame.fate = .dropped ∧ _
  have hOpen := hSince frame hClaimed
  rcases Nat.lt_or_ge revision frame.sends with hLater | hEarlier
  · have := hOpen hLater
    cases hFate : frame.fate <;> simp_all [FrameFate.Held, Nat.not_le.mpr hLater]
  · cases hFate : frame.fate <;> simp [FrameFate.Held, hEarlier]

variable (snapshot : Result (Option SemanticResourceState))

/-- A contact list comes for a request, and the resource of its coordinate is read with the given answer. -/
def listDelivery : EventDelivery where
  session := ("wss://relay", none)
  wire := 1
  event := .bare 1 7 10 3
  answers := ⟨snapshot, fun _ => .ok [], fun _ => none, fun _ => none, none, snapshot, .ok .stale, .ok (), .committed⟩

def listWorld : CoverageWorld := CoverageWorld.events ⟨.oneRequest, []⟩ [listDelivery snapshot] .committed

theorem listWorld_reachable : (listWorld snapshot).Reachable :=
  .events _ _ (.step (c := {}) .start (.send _ _ _ id (by decide)))

theorem listWorld_world (h : (listDelivery snapshot).fate .committed ≠ .poisons) : (listWorld snapshot).world = .oneRequest := by
  simp only [listWorld, CoverageWorld.events, ingestRelayObservationsGoverned]
  rw [filter_eq_nil_iff.mpr, List.foldl_nil]
  intro d hI
  obtain rfl : d = listDelivery snapshot := by
    rcases mem_append.mp hI with hI | hI <;> exact mem_singleton.mp (List.mem_of_mem_filter hI)
  simpa using h

/-- The coverage that the answer to the request commits speaks about the list. -/
def listClaimed : ReceivedEvent → Prop :=
  (listWorld snapshot).Claimed ("wss://relay", 1, none) (fun _ event => event.kind = 3) (7, ⟨5, 50⟩)

theorem listWorld_claimed : listClaimed snapshot ⟨1, listDelivery snapshot, .committed⟩ :=
  ⟨.head _, rfl, rfl, by simp [listDelivery, Event.bare, u64Max], by simp [listDelivery, Event.bare]⟩

/-- The resource cannot be read, the list is given up, and the answer commits coverage of its time. -/
theorem committed_coverage_hides_dropped : let snapshot := .error ⟨"unreadable"⟩
    (listWorld snapshot).Reachable ∧ 0 ∈ (listWorld snapshot).world.awaited ("wss://relay", 1, none) ∧
      (∃ completed engine,
        (listWorld snapshot).world.engine.attributeEose ("wss://relay", none) 1 50 = .ok (some completed, engine) ∧
        persistAttributedCompletion completed (.ok ()) = some [(7, ⟨5, 50⟩)]) ∧
      ∃ frame, listClaimed snapshot frame ∧ ¬ frame.fate.Held := by
  intro snapshot
  obtain ⟨completed, engine, hE, hC⟩ := World.oneRequest_answered
  have hW := listWorld_world snapshot (by decide)
  refine ⟨listWorld_reachable _, hW ▸ World.oneRequest_awaited, ⟨completed, engine, hW ▸ hE, ?_⟩, _,
    listWorld_claimed _, ?_⟩
  · simp [persistAttributedCompletion, hC, Except.toOption]
  · rintro (h | h) <;> cases h

/-- Without a resource the list is stored, and the coverage is honest. -/
theorem committed_coverage_honest_stored :
    (∃ frame, listClaimed (.ok none) frame) ∧ ∀ frame, listClaimed (.ok none) frame → frame.fate.Held := by
  obtain ⟨cmp, engine, hE, hc⟩ := World.oneRequest_answered
  have hW := listWorld_world (.ok none) (by decide)
  have ho : persistAttributedCompletion cmp (.ok ()) = some [(7, ⟨5, 50⟩)] := by
    simp [persistAttributedCompletion, hc, Except.toOption]
  have hA : 0 ∈ (listWorld (.ok none)).world.awaited (.ofWire ("wss://relay", none) 1) :=
    hW ▸ World.oneRequest_awaited
  refine ⟨⟨_, listWorld_claimed _⟩, (committed_coverage_honest_iff (listWorld_reachable _) hA (hW ▸ hE) ho
    _ _ (.head _)).mpr fun frame hC => ?_⟩
  cases mem_singleton.mp hC.received
  exact ⟨fun hLost => absurd (SuccessorAnswers.install_dropped.mpr hLost) (by decide), fun h => absurd h (by decide)⟩

end NmpStore.Engine
