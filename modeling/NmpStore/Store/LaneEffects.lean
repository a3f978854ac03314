import NmpStore.Store.Tidy

/-! # What the lane doors do

A lane door forgets, opens lanes, moves one lane within its attempt or starts the next attempt of one lane.
-/

namespace NmpStore

namespace Queue

variable {q q' : Queue} {key : LaneKey} {relay : QueueRelayId}

theorem laneOf_ok : q.laneOf key = .ok ln ↔ q.lanes[(key.intentId, key.relay)]? = some ln := by
  unfold laneOf
  cases q.lanes[(key.intentId, key.relay)]? <;> simp

theorem dropDeadline_get (h : q.Mirrors)
    (hO : q.lanes[(owner, relay)]? = some o) (nw : Nat) (other : IntentId) (ol : QueueRelayId) :
    (q.dropDeadline owner relay o.state).deadlines[(nw, other, ol)]? =
      if (owner, relay) = (other, ol) then none else q.deadlines[(nw, other, ol)]? := by
  have hM := h nw other ol
  unfold dropDeadline
  cases hD : laneStateDeadline o.state with
  | none =>
    split_ifs with hS
    · cases hS
      rw [hO] at hM
      exact hM.trans (Lane.deadlineAt_eq_none (by simp [hD]))
    · rfl
  | some dd =>
    obtain ⟨tm, kn⟩ := dd
    have hE := get_erase q.deadlines (tm, owner, relay) (nw, other, ol)
    refine hE.trans ?_
    by_cases hS : (owner, relay) = (other, ol)
    · cases hS
      rw [if_pos rfl]
      split_ifs with hT
      · rfl
      rw [hO] at hM
      refine hM.trans (Lane.deadlineAt_eq_none fun other hX => hT ?_)
      have hP := hD.symm.trans hX
      simp only [Option.some.injEq, Prod.mk.injEq] at hP
      rw [hP.1]
    · rw [if_neg hS, if_neg fun hK => hS (Prod.mk.inj hK).2]

theorem addDeadline_get (q : Queue) (owner : IntentId) (relay : QueueRelayId) (ln : Lane) (nw : Nat)
    (other : IntentId) (ol : QueueRelayId) :
    (q.addDeadline owner relay ln).deadlines[(nw, other, ol)]? =
      if (owner, relay) = (other, ol) then (ln.deadlineAt nw).or q.deadlines[(nw, other, ol)]?
      else q.deadlines[(nw, other, ol)]? := by
  unfold addDeadline Lane.deadlineAt
  cases laneStateDeadline ln.state with
  | none => simp
  | some dd =>
    obtain ⟨tm, kn⟩ := dd
    refine (get_insert q.deadlines (tm, owner, relay) (nw, other, ol) (ln.revision, kn)).trans ?_
    by_cases hS : (owner, relay) = (other, ol)
    · cases hS
      by_cases hT : tm = nw <;> simp [hT]
    · rw [if_neg hS, if_neg fun hK => hS (Prod.mk.inj hK).2]

theorem putLane_frame (q : Queue) (ow : IntentId) (relay : QueueRelayId) (o n : Lane) :
    ∃ deadlines, q.putLane ow relay o n = { q with lanes := q.lanes.insert (ow, relay) n, deadlines } := by
  unfold putLane dropDeadline addDeadline
  cases laneStateDeadline o.state <;> cases laneStateDeadline n.state <;> exact ⟨_, rfl⟩

theorem Mirrors.putLane (h : q.Mirrors)
    (hO : q.lanes[(own, relay)]? = some old) (n : Lane) : (q.putLane own relay old n).Mirrors := by
  intro nw o ol
  have hL : (q.putLane own relay old n).lanes = q.lanes.insert (own, relay) n := by
    obtain ⟨dd, hP⟩ := q.putLane_frame own relay old n
    rw [hP]
  have hD := dropDeadline_get h hO nw o ol
  refine (addDeadline_get _ own relay n nw o ol).trans ?_
  rw [hL, get_insert]
  split_ifs with hS
  · rw [if_pos hS] at hD
    refine (congrArg _ hD).trans ?_
    simp
  · rw [if_neg hS] at hD
    exact hD.trans (h nw o ol)

structure Moves (q : Queue) (owner : IntentId) (relay : QueueRelayId) (old new : Lane) (q' : Queue) : Prop where
  old : q.lanes[(owner, relay)]? = some old
  lanes : q'.lanes = q.lanes.insert (owner, relay) new
  mirrors : q.Mirrors → q'.Mirrors

structure Thins (q q' : Queue) : Prop where
  intents : ∀ (id : IntentId) record, q'.intents[id]? = some record → q.intents[id]? = some record
  displaced : ∀ (id : IntentId) st, q'.displaced[id]? = some st → q.displaced[id]? = some st

theorem Thins.of_same (hI : q'.intents = q.intents) (hD : q'.displaced = q.displaced) : q.Thins q' :=
  ⟨fun _ _ hA => hI ▸ hA, fun _ _ hA => hD ▸ hA⟩

theorem Thins.refl (q : Queue) : q.Thins q := .of_same rfl rfl

theorem Thins.trans (fr : q.Thins m) (last : m.Thins q') : q.Thins q' :=
  ⟨fun id r hA => fr.intents id r (last.intents id r hA),
    fun id st hA => fr.displaced id st (last.displaced id st hA)⟩

def SameFiling (q q' : Queue) : Prop :=
  q'.intents = q.intents ∧ q'.receipts = q.receipts ∧ q'.nextIntentId = q.nextIntentId

structure Replaces (q : Queue) (key : LaneKey) (old lane : Lane) (state : LaneState) (q' : Queue) : Prop where
  moves : q.Moves key.intentId key.relay old lane q'
  reached : lane.state = state
  ordinal : nextOrdinal old state = .ok lane.lastOrdinal
  attempts : q'.attempts = q.attempts
  thins : q.Thins q'
  filing : q.SameFiling q'

theorem replaceLane_ok (ho : q.replaceLane key r st = .ok (ln, q')) : ∃ o, q.Replaces key o ln st q' := by
  simp only [replaceLane, bind_ok, laneOf_ok, refuseIf_ok, pure_ok,
    Prod.mk.injEq] at ho
  obtain ⟨o, hO, -, -, -, -, -, -, lastOrdinal, hOrdinal, rfl, rfl⟩ := ho
  obtain ⟨dd, hP⟩ := q.putLane_frame key.intentId key.relay o ⟨key.eventId, o.revision + 1, lastOrdinal, st⟩
  refine ⟨o, ⟨hO, by rw [hP], fun h => h.putLane hO _⟩, rfl, hOrdinal, by rw [hP], ?_, ?_⟩
  · rw [hP]
    exact .of_same rfl rfl
  · rw [hP]
    exact ⟨rfl, rfl, rfl⟩

theorem nextOrdinal_ok (ho : nextOrdinal o st = .ok ord) : ord = st.ordinal.getD o.lastOrdinal := by
  unfold nextOrdinal at ho
  split at ho
  · next hN =>
    rw [hN]
    exact (pure_ok.mp ho).symm
  next hS =>
  simp only [run_ok] at ho
  obtain ⟨-, -, rfl⟩ := ho
  rw [hS]
  rfl

theorem Replaces.of_details
    (h : Replaces { q with attemptDetails := details } key o ln st q') : q.Replaces key o ln st q' := by
  have hT : q.Thins { q with attemptDetails := details } := .of_same rfl rfl
  refine ⟨⟨h.moves.old, h.moves.lanes, fun hM => h.moves.mirrors ?_⟩, h.reached, h.ordinal, h.attempts,
    hT.trans h.thins, h.filing⟩
  exact hM.of_same rfl rfl

structure Opens (q : Queue) (intentId : IntentId) (relays : List QueueRelayId) (q' : Queue) : Prop where
  lanes : ∀ (owner : IntentId) (relay : QueueRelayId), q'.lanes[(owner, relay)]? = q.lanes[(owner, relay)]? ∨
    owner = intentId ∧ relay ∈ relays ∧ q.lanes[(owner, relay)]? = none ∧
      ∃ eventId, q'.lanes[(owner, relay)]? = some ⟨eventId, 1, 0, .waitingConnection⟩
  attempts : q'.attempts = q.attempts
  deadlines : q'.deadlines = q.deadlines

/-- Two doors set the state of a lane whatever it was, and without asking whether the intent is open. -/
def Resets (owner : IntentId) : LaneDoor → Prop
  | .setLaneTransient key _ _ _ _ _ | .suspendLaneAttempt key _ _ _ _ _ _ => key.intentId = owner
  | _ => False

inductive LaneEffect (q q' : Queue) : LaneDoor → Prop
  | lapsed {door : LaneDoor} (hLapses : q.Lapses q') (hTidy : q.Tidy → q'.Tidy) : LaneEffect q q' door
  | moved {door : LaneDoor} {owner : IntentId} {relay : QueueRelayId} {old new : Lane} (hMoves : q.Moves owner relay old new q')
      (hAttempts : q'.attempts = q.attempts) (hOrdinal : new.lastOrdinal = old.lastOrdinal) (hFiling : q.SameFiling q')
      (hAlive : new.state.isTerminal = false → old.state.isTerminal = false ∨ (∃ record, q.intents[owner]? = some record) ∨
        Resets owner door) : LaneEffect q q' door
  | started {key : LaneKey} {revision startedAt : Nat} {event : Event} {old new : Lane}
      (hMoves : q.Moves key.intentId key.relay old new q')
      (hAttempts : q'.attempts =
        q.attempts.insert (key.intentId, key.relay, old.lastOrdinal + 1) (event.id, AttemptOutcome.started))
      (hOrdinal : new.lastOrdinal = old.lastOrdinal + 1) (hFiling : q.SameFiling q')
      (hOpen : ∃ record, q.intents[key.intentId]? = some record) :
      LaneEffect q q' (.startLaneAttempt key revision event startedAt)
  | opened {intentId : IntentId} (hOpens : q.Opens intentId (q.intentRelays intentId).toList q') (hFiling : q.SameFiling q')
      (hOpen : ∃ record, q.intents[intentId]? = some record) : LaneEffect q q' (.bootstrapLanes intentId)

theorem Replaces.effect (h : q.Replaces key o ln st q') (hS : ∀ od, st.ordinal = some od →
    ∀ c, q.lanes[(key.intentId, key.relay)]? = some c → od = c.lastOrdinal)
    (hAlive : st.isTerminal = false → o.state.isTerminal = false ∨ (∃ r, q.intents[key.intentId]? = some r) ∨
      Resets key.intentId door) : LaneEffect q q' door := by
  refine .moved h.moves h.attempts ?_ h.filing (h.reached ▸ hAlive)
  rw [nextOrdinal_ok h.ordinal]
  cases hOrdinal : st.ordinal with
  | none => rfl
  | some od => exact hS od hOrdinal o h.moves.old

theorem persistLaneState_ok (ho : q.persistLaneState key rev st = .ok o) :
    (∃ r, q.intents[key.intentId]? = some r) ∧ q.replaceLane key rev st = .ok o := by
  unfold persistLaneState at ho
  split at ho
  · cases ho
  next r hR =>
  split at ho
  · cases ho
  simp only [bind_ok] at ho
  obtain ⟨-, -, ho⟩ := ho
  exact ⟨⟨r, hR⟩, ho⟩

theorem persistLaneState_effect (ho : q.persistLaneState key r st = .ok (ln, q')) (hS : st.ordinal = none) :
    LaneEffect q q' door ∧ q.Thins q' := by
  obtain ⟨hOpen, ho⟩ := persistLaneState_ok ho
  obtain ⟨o, hR⟩ := replaceLane_ok ho
  exact ⟨hR.effect (by simp [hS]) fun _ => .inr (.inl hOpen), hR.thins⟩

theorem recordTransient_ok (ho : q.recordTransient key ord transient = .ok q') :
    ∃ dt, q' = { q with attemptDetails := dt } := by
  simp only [recordTransient, run_ok] at ho
  obtain ⟨dt, -, rfl⟩ := ho
  exact ⟨_, rfl⟩

theorem noteTransient_ok (ho : q.noteTransient key ord transient = .ok q') :
    ∃ dt, q' = { q with attemptDetails := dt } := by
  unfold noteTransient at ho
  split_ifs at ho
  · exact recordTransient_ok ho
  · exact ⟨q.attemptDetails, (pure_ok.mp ho).symm⟩

theorem waitingState_ordinal (ah : Bool) : (waitingState ah).ordinal = none := by
  cases ah <;> rfl

theorem setLaneTransient_effect
    (ho : q.setLaneTransient key r ord eligibleAt cause rawReason = .ok (ln, q')) :
    LaneEffect q q' (.setLaneTransient key r ord eligibleAt cause rawReason) ∧ q.Thins q' := by
  simp only [setLaneTransient, bind_ok, refuseIf_ok, laneOf_ok, not_or, not_not] at ho
  obtain ⟨-, -, current, hC, -, ⟨-, hOrdinal⟩, mid, hD, ho⟩ := ho
  obtain ⟨dt, rfl⟩ := noteTransient_ok hD
  obtain ⟨ol, hR⟩ := replaceLane_ok ho
  refine ⟨hR.of_details.effect (fun o hX fd hF => ?_) fun _ => .inr (.inr rfl),
    hR.of_details.thins⟩
  cases hX
  cases hC.symm.trans hF
  exact hOrdinal.symm

theorem suspendLaneAttempt_effect
    (ho : q.suspendLaneAttempt key r ord time cause rawReason auth = .ok (ln, q')) :
    LaneEffect q q' (.suspendLaneAttempt key r ord time cause rawReason auth) ∧ q.Thins q' := by
  simp only [suspendLaneAttempt, bind_ok] at ho
  obtain ⟨-, -, current, -, -, -, mid, hD, ho⟩ := ho
  obtain ⟨dt, rfl⟩ := recordTransient_ok hD
  obtain ⟨o, hR⟩ := replaceLane_ok ho
  exact ⟨hR.of_details.effect (by simp [waitingState_ordinal]) fun _ => .inr (.inr rfl), hR.of_details.thins⟩

variable {next : PostHandoffState}

theorem afterHandoff_ordinal
    (ho : afterHandoff ord details next = .ok (st, details')) (hX : st.ordinal = some o) :
    o = ord := by
  cases next with
  | waitingConnection =>
    cases pure_ok.mp ho
    cases hX
  | awaitingAck | transient =>
    cases pure_ok.mp ho
    exact (Option.some.inj hX).symm
  | terminal =>
    simp only [afterHandoff, run_ok] at ho
    obtain ⟨-, -, terminal, -, -, -, rfl, -⟩ := ho
    exact (Option.some.inj hX).symm

theorem awaitsHandoff_underWay (h : awaitsHandoff ord st = true) : st.isTerminal = false := by
  cases st <;> first | rfl | cases h

theorem recordLaneHandoff_effect
    (ho : q.recordLaneHandoff key r ord handoff next = .ok (ln, q')) : LaneEffect q q' door ∧ q.Thins q' := by
  simp only [recordLaneHandoff, bind_ok, refuseIf_ok, laneOf_ok, not_or, not_not,
    pure_ok, Prod.mk.injEq] at ho
  obtain ⟨-, -, current, hC, -, ⟨-, -, hOrdinal⟩, -, hA, -, -, details, -, ⟨st, details'⟩, ha, ⟨_, m⟩,
    hr, -, -, rfl, rfl⟩ := ho
  obtain ⟨ol, hR⟩ := replaceLane_ok hr
  have hS : q.Replaces key ol _ st (m.putDetails key ord details') :=
    ⟨⟨hR.moves.old, hR.moves.lanes, fun h => (hR.moves.mirrors h).of_same rfl rfl⟩, hR.reached,
      hR.ordinal, hR.attempts, hR.thins.trans (.of_same rfl rfl), hR.filing⟩
  refine ⟨hS.effect (fun o hX fd hF => ?_) fun _ => .inl ?_, hS.thins⟩
  · cases hC.symm.trans hF
    exact (afterHandoff_ordinal ha hX).trans hOrdinal.symm
  · cases hC.symm.trans hS.moves.old
    exact awaitsHandoff_underWay (by simpa using hA)

theorem finishLaneAttempt_effect (ho : q.finishLaneAttempt key r ord out finishedAt = .ok (ln, q')) :
    LaneEffect q q' door ∧ q.Thins q' := by
  simp only [finishLaneAttempt, bind_ok, refuseIf_ok, laneOf_ok, not_or, not_not] at ho
  obtain ⟨-, -, terminal, -, current, hC, -, ⟨-, -, hOrdinal⟩, details, -, ho⟩ := ho
  split at ho
  · simp only [run_ok] at ho
    obtain ⟨-, -, -, rfl⟩ := ho
    exact ⟨.lapsed (.refl q) id, .refl q⟩
  obtain ⟨-, -, ho⟩ := bind_ok.mp ho
  obtain ⟨ol, hR⟩ := replaceLane_ok ho
  refine ⟨hR.of_details.effect (fun o hX fd hF => ?_) fun hS => (by cases hS),
    hR.of_details.thins⟩
  cases hX
  cases hC.symm.trans hF
  exact hOrdinal.symm

theorem denyLaneAuth_effect (ho : q.denyLaneAuth key r denial = .ok (ln, q')) :
    LaneEffect q q' door ∧ q.Thins q' := by
  simp only [denyLaneAuth, bind_ok, laneOf_ok] at ho
  obtain ⟨-, -, current, hC, -, -, ho⟩ := ho
  split_ifs at ho
  · obtain ⟨-, rfl⟩ := ho
    exact ⟨.lapsed (.refl q) id, .refl q⟩
  simp only [bind_ok] at ho
  obtain ⟨-, -, ho⟩ := ho
  obtain ⟨ol, hR⟩ := replaceLane_ok ho
  refine ⟨hR.effect (fun o hX fd hF => ?_) fun hS => (by cases hS), hR.thins⟩
  cases hX
  cases hC.symm.trans hF
  rfl

theorem beginAttempt_effect (hOpen : ∃ r, q.intents[key.intentId]? = some r)
    (ho : q.beginAttempt key rev ev.id startedAt = .ok (ln, q')) :
    LaneEffect q q' (.startLaneAttempt key rev ev startedAt) ∧ q.Thins q' := by
  simp only [beginAttempt, bind_ok, laneOf_ok] at ho
  obtain ⟨c, hC, -, -, -, -, ho⟩ := ho
  obtain ⟨o, hR⟩ := replaceLane_ok ho
  have hO : q.lanes[(key.intentId, key.relay)]? = some o := hR.moves.old
  cases hC.symm.trans hO
  refine ⟨.started ⟨hO, hR.moves.lanes, fun h => hR.moves.mirrors ?_⟩ hR.attempts
    (nextOrdinal_ok hR.ordinal) hR.filing hOpen, fun id r hA => ?_, fun id st hA => ?_⟩
  · exact h.of_same rfl rfl
  · exact hR.thins.intents id r hA
  · exact hR.thins.displaced id st hA

theorem bootstrapLane_opens {next : Queue}
    (hR : relay ∈ relays) (h : q.Opens i relays m ∧ q.SameFiling m ∧ q.Thins m)
    (ho : bootstrapLane i eventId m relay = .ok next) :
    q.Opens i relays next ∧ q.SameFiling next ∧ q.Thins next := by
  simp only [bootstrapLane, bind_ok] at ho
  obtain ⟨-, -, ho⟩ := ho
  split at ho
  · simp only [run_ok] at ho
    obtain ⟨-, -, rfl⟩ := ho
    exact h
  next hM =>
  cases ho
  refine ⟨⟨fun ow o => ?_, h.1.attempts, h.1.deadlines⟩, h.2.1, h.2.2.trans (.of_same rfl rfl)⟩
  have hI := get_insert m.lanes (i, relay) (ow, o) ⟨eventId, 1, 0, .waitingConnection⟩
  by_cases hS : (i, relay) = (ow, o)
  · cases hS
    rw [if_pos rfl] at hI
    refine .inr ⟨rfl, hR, ?_, eventId, hI⟩
    rcases h.1.lanes i relay with hO | ⟨-, -, hN, -⟩
    · exact hO.symm.trans hM
    · exact hN
  · rw [if_neg hS] at hI
    rw [hI]
    exact h.1.lanes ow o

theorem bootstrapLanes_effect (ho : q.bootstrapLanes i = .ok q') :
    LaneEffect q q' (.bootstrapLanes i) ∧ q.Thins q' := by
  unfold bootstrapLanes at ho
  split at ho
  · cases ho
  next r hr =>
  split at ho
  · cases ho
  next ed _ =>
  have hR := foldlM_induction
    (fun _ a => q.Opens i (q.intentRelays i).toList a ∧ q.SameFiling a ∧ q.Thins a)
    ⟨⟨fun _ _ => .inl rfl, rfl, rfl⟩, ⟨rfl, rfl, rfl⟩, .refl q⟩
    (fun done relay a next hP hA hN =>
      bootstrapLane_opens (hP.subset (by simp)) hA hN) ho
  exact ⟨.opened hR.1 hR.2.1 ⟨r, hr⟩, hR.2.2⟩

theorem recordRouteRevision_effect
    (ho : q.recordRouteRevision i relays = .ok q') : LaneEffect q q' door ∧ q.Thins q' := by
  unfold recordRouteRevision at ho
  split at ho
  · cases ho
  simp only [run_ok] at ho
  obtain ⟨-, -, rfl⟩ := ho
  exact ⟨.lapsed (.of_same rfl rfl rfl) fun h => ⟨h.drawn, h.receipts, h.lanes⟩, .of_same rfl rfl⟩

theorem laneStates_terminal (h : LaneShape.holds (q.laneStates i) shape = true)
    (hL : q.lanes[(i, relay)]? = some ln) : ln.state.isTerminal = true := by
  have hM : ln.state ∈ q.laneStates i :=
    mem_map.mpr ⟨((i, relay), ln), mem_filter.mpr ⟨mem_toList.mpr hL, by simp⟩, rfl⟩
  cases shape with
  | none =>
    rw [List.isEmpty_iff.mp h] at hM
    cases hM
  | allTerminal =>
    simp only [LaneShape.holds, and_eq_true, all_eq_true] at h
    exact h.2 _ hM

theorem deadline_of_terminal (hS : st.isTerminal = true) : laneStateDeadline st = none := by
  cases st <;> first | rfl | cases hS

theorem updateReceipt_others (ho : q.updateReceipt rcId st = .ok q') :
    ∃ receipts, q' = { q with receipts } ∧ ∀ o : Nat, o ≠ rcId → receipts[o]? = q.receipts[o]? := by
  unfold updateReceipt at ho
  split at ho
  · cases ho
  split at ho
  · cases ho
  cases ho
  exact ⟨_, rfl, fun o hX => by simp [Ne.symm hX]⟩

theorem closeIntent_effect (ho : q.closeIntent i shape now = .ok q') :
    LaneEffect q q' door ∧ q.Thins q' := by
  unfold closeIntent at ho
  split at ho
  · cases ho
    exact ⟨.lapsed (.refl q) id, .refl q⟩
  next it hI =>
  simp only [bind_ok, refuseIf_ok, Bool.not_eq_false] at ho
  obtain ⟨-, hS, mid, hD, hM⟩ := ho
  have hR : ∃ receipts, mid = { q with receipts } ∧
      ∀ o : Nat, o ≠ it.receiptId → receipts[o]? = q.receipts[o]? := by
    unfold explainClose at hD
    split_ifs at hD
    · exact updateReceipt_others hD
    · exact ⟨q.receipts, (pure_ok.mp hD).symm, fun _ _ => rfl⟩
  obtain ⟨receipts, rfl, ht⟩ := hR
  have hm := markTerminalReceipt_receipts hM
  -- the lanes are all terminal, so no deadline goes
  have hi : clearIntentDeadlines { q with receipts } i = { q with receipts } :=
    clearIntentDeadlines_of_idle fun relay ln hL => deadline_of_terminal (laneStates_terminal hS hL)
  rw [hi] at hM
  obtain ⟨receipts', sequence, time, rfl⟩ := markTerminalReceipt_frame hM
  refine ⟨.lapsed (.of_same rfl rfl rfl) (Retains.tidy (retains_closing rfl rfl (fun r hr => ?_)
    (fun o hX => (hm.1 o hX).trans (ht o hX)) hm.2 rfl
    fun relay ln => laneStates_terminal hS)), fun id r hA => ?_, fun _ _ hA => hA⟩
  · rw [Option.some.inj (hr.symm.trans hI)]
  exact of_erase hA

theorem removeEntry_effect (ho : q.removeEntry rcId = .ok (o, q')) : LaneEffect q q' door ∧ q.Thins q' := by
  unfold removeEntry at ho
  split at ho
  · cases ho
    exact ⟨.lapsed (.refl q) id, .refl q⟩
  have hR : ∀ (id : Nat) rc, (q.receipts.erase rcId)[id]? = some rc →
      q.receipts[id]? = some rc := fun id rc hA => by
    exact of_erase hA
  split at ho
  · cases ho
    refine ⟨.lapsed ?_ fun h => h.thin rfl hR fun _ _ _ hL => hL, ?_⟩
    · exact .of_same rfl rfl rfl
    · exact .of_same rfl rfl
  next i _ =>
  split_ifs at ho
  · cases ho
    exact ⟨.lapsed (.refl q) id, .refl q⟩
  simp only [run_ok] at ho
  obtain ⟨-, -, -, rfl⟩ := ho
  refine ⟨.lapsed ?_ fun h => h.thin rfl hR fun ow relay ln hL => ?_, fun id r hA => hA,
    fun id st hA => ?_⟩
  · exact lapses_of_forgotten rfl rfl rfl
  · have hF : (q.lanes.filter fun key _ => key.1 ≠ i)[(ow, relay)]? = some ln := hL
    rw [get_without] at hF
    split_ifs at hF
    exact hF
  exact of_erase hA

end Queue

variable {q' q : Queue}

theorem LaneDoor.returned_ok {α : Type} {x : Result (α × Queue)} :
    (do return (← x).2) = Except.ok q' ↔ ∃ a, x = .ok (a, q') := by
  cases x with
  | error => simp [bind, Except.bind]
  | ok pa =>
    obtain ⟨a, q⟩ := pa
    simp [bind, Except.bind, pure, Except.pure]

open Queue in
theorem LaneDoor.run_effect [ShardHash] (ho : door.run s = .ok q') :
    LaneEffect s.queue q' door ∧ s.queue.Thins q' := by
  cases door with
  | recordRouteRevision => exact recordRouteRevision_effect ho
  | bootstrapLanes => exact bootstrapLanes_effect ho
  | closeIntent => exact closeIntent_effect ho
  | setLaneWaiting _ _ ah =>
    obtain ⟨_, hR⟩ := returned_ok.mp ho
    exact persistLaneState_effect hR (waitingState_ordinal ah)
  | setLaneEligible =>
    obtain ⟨_, hR⟩ := returned_ok.mp ho
    exact persistLaneState_effect hR rfl
  | setLaneTransient =>
    obtain ⟨_, hR⟩ := returned_ok.mp ho
    exact setLaneTransient_effect hR
  | suspendLaneAttempt =>
    obtain ⟨_, hR⟩ := returned_ok.mp ho
    exact suspendLaneAttempt_effect hR
  | startLaneAttempt =>
    obtain ⟨_, hR⟩ := returned_ok.mp ho
    unfold Store.startLaneAttempt at hR
    split at hR
    · cases hR
    next it hI =>
    simp only [bind_ok, Prod.exists] at hR
    obtain ⟨_, _, -, -, -, hR⟩ := hR
    exact beginAttempt_effect ⟨it, hI⟩ hR
  | recordLaneHandoff =>
    obtain ⟨_, hR⟩ := returned_ok.mp ho
    exact recordLaneHandoff_effect hR
  | finishLaneAttempt =>
    obtain ⟨_, hR⟩ := returned_ok.mp ho
    exact finishLaneAttempt_effect hR
  | denyLaneAuth =>
    obtain ⟨_, hR⟩ := returned_ok.mp ho
    exact denyLaneAuth_effect hR
  | removeEntry =>
    obtain ⟨_, hR⟩ := returned_ok.mp ho
    exact removeEntry_effect hR

theorem Queue.SameDelivery.lapses (h : q.SameDelivery q') : q.Lapses q' := .of_same h.2.1 h.2.2.2.1 h.2.2.1

theorem Queue.ClaimsOnly.lapses (h : q.ClaimsOnly q') : q.Lapses q' := by
  obtain ⟨_, _, _, rfl⟩ := h
  exact .of_same rfl rfl rfl

namespace Store

variable [ShardHash] {s s' : Store}

theorem Ingests.lapses (hI : s.Ingests ev src o s') : s.queue.Lapses s'.queue :=
  hI.queue_relates .refl (·.delivery.lapses)

theorem Accepts.lapses (hA : s.Accepts a o s') :
    s.queue.Lapses s'.queue := by
  have hd : s.queue.Lapses s.queue.allocated := .of_same rfl rfl rfl
  have hS : s.queue.Lapses
      (if a.frozen.isDeletion then s.queue.allocated.staked s.queue.nextIntentId a.frozen else s.queue.allocated) := by
    split_ifs
    · exact hd.trans (Queue.staked_frame ..).lapses
    · exact hd
  have hJ : ∀ (q : Queue) (ol : StoredEvent), s.queue.Lapses q →
      s.queue.Lapses (joinedQueue q a ol s.queue.nextIntentId s.queue.nextReceiptId) := by
    intro q ol hD
    unfold joinedQueue
    split_ifs
    · exact hD.trans (.of_same rfl rfl rfl)
    · exact (hD.trans (q.staked_frame ..).lapses).trans (.of_same rfl rfl rfl)
    · exact hD.trans (.of_same rfl rfl rfl)
  cases hA with
  | joinedRow => exact hJ _ _ hd
  | joinedStash => exact hJ _ _ (hd.trans (.of_same rfl rfl rfl))
  | refused => exact .refl _
  | stale => exact hd.trans (.of_same rfl rfl rfl)
  | stored => exact hS.trans (.of_same rfl rfl rfl)
  | superseded _ _ _ _ _ hR => exact (hd.trans hR.lapses).trans (.of_same rfl rfl rfl)

theorem Promotes.lapses (hP : s.Promotes i ver o s') : s.queue.Lapses s'.queue :=
  hP.queue_relates .refl .trans (·.delivery.lapses) fun _ _ => .of_same rfl rfl rfl

theorem Compensates.lapses (hC : s.Compensates i o s') : s.queue.Lapses s'.queue := by
  cases hC with
  | notFound => exact .refl _
  | alreadySigned => exact .refl _
  | compensated hI hE hU hd hR hc h1 =>
    rename_i r fr sg m af rt rv rs sq tm
    have hD : s.queue.Lapses m.queue := by
      cases hd with
      | retracted | kept | nowhere => exact .refl _
      | dropped | stashed => exact .of_same rfl rfl rfl
    have hl : m.queue.Lapses (m.closed i).queue := .of_same rfl rfl rfl
    have hA : (m.closed i).queue.Lapses af.queue := by
      cases hR with
      | nothing => exact .refl _
      | offered _ hr =>
        cases hr with
        | joined | refused | placed | stale => exact .refl _
        | joinedSigned _ _ _ _ _ hF hL => exact hL.queue ▸ hF.delivery.lapses
    rw [hc.queue]
    refine ((hD.trans hl).trans hA).trans ((af.queue.dropClaims_frame i).lapses.trans ?_)
    exact .of_same rfl rfl rfl

theorem Step.lapses (h : s.Sound bs) (hS : Step bs s s') : s.queue.Lapses s'.queue :=
  hS.relates .refl .trans (·.lapses) (·.lapses) (·.lapses) (·.lapses) h

end Store

end NmpStore
