import NmpStore.Store.Attempts
import NmpStore.Semantic.Edits

/-! # Delivery along a run

The lanes of a generation are replaced when its successor is installed: those of its members go, and the lowest member
of the successor gets one lane per relay.
-/

namespace NmpStore.Semantic

variable {q q' : Queue} {owner : IntentId}

structure DropsLanes (q : Queue) (dropped : List IntentId) (q' : Queue) : Prop where
  lanes : ∀ (owner : IntentId) (relay : QueueRelayId), q'.lanes[(owner, relay)]? =
    if owner ∈ dropped then none else q.lanes[(owner, relay)]?
  attempts : q'.attempts = q.attempts
  mirrors : q.Mirrors → q'.Mirrors

theorem dropMemberLanes_lanes (hOk : dropMemberLanes eid q mb = .ok q') :
    DropsLanes q [mb] q' := by
  simp only [dropMemberLanes, run_ok] at hOk
  obtain ⟨-, -, rfl⟩ := hOk
  have hl : ∀ (owner : IntentId) (r : QueueRelayId),
      (q.lanes.eraseAll ((q.lanes.toList.filter (·.1.1 = mb)).map (·.1)))[(owner, r)]? =
        if owner = mb then none else q.lanes[(owner, r)]? := by
    intro owner r
    have hE := Table.get_eraseAll q.lanes ((q.lanes.toList.filter (·.1.1 = mb)).map (·.1)) (owner, r)
    have hk : (owner, r) ∈ (q.lanes.toList.filter (·.1.1 = mb)).map (·.1) ↔
        owner = mb ∧ ∃ lane, q.lanes[(owner, r)]? = some lane := by
      simp [and_comm]
    by_cases hM : owner = mb
    · rw [if_pos hM]
      cases hL : q.lanes[(owner, r)]? with
      | none => exact (hE.2 fun hK => by simpa [hL] using (hk.mp hK).2).trans hL
      | some lane => exact hE.1 (hk.mpr ⟨hM, lane, hL⟩)
    · rw [if_neg hM]
      exact hE.2 fun hK => hM (hk.mp hK).1
  refine ⟨fun owner r => (hl owner r).trans ?_, rfl, fun h => h.forget rfl hl⟩
  simp

theorem dropLanes_lanes (hOk : mems.foldlM (dropMemberLanes eid) q = .ok q') : DropsLanes q mems q' := by
  refine foldlM_induction (fun done a => DropsLanes q done a) ⟨by simp, rfl, id⟩
    (fun done mb a next _ hA hN => ?_) hOk
  have hD := dropMemberLanes_lanes hN
  refine ⟨fun owner r => ?_, hD.attempts.trans hA.attempts, fun h => hD.mirrors (hA.mirrors h)⟩
  rw [hD.lanes, hA.lanes]
  by_cases hM : owner = mb <;> by_cases hd : owner ∈ done <;> simp [hM, hd]

def reopened (before : Queue) (owner : IntentId) (eventId : EventId) (dropped : Bool) (relay : QueueRelayId) : Lane :=
  let old := if dropped then before.lanes[(owner, relay)]? else none
  ⟨eventId, old.elim 0 (·.revision) + 1, old.elim 0 (·.lastOrdinal), .waitingConnection⟩

theorem openLanes_lanes {rl : List QueueRelayId}
    (hOk : rl.foldlM (openLane b owner eid dropped) q = .ok q') :
    (∀ (o : IntentId) (r : QueueRelayId), q'.lanes[(o, r)]? =
        if o = owner ∧ r ∈ rl then some (reopened b owner eid dropped r) else q.lanes[(o, r)]?) ∧
      q'.attempts = q.attempts ∧ q'.deadlines = q.deadlines := by
  refine foldlM_induction (fun done ac => (∀ (o : IntentId) (r : QueueRelayId), ac.lanes[(o, r)]? =
        if o = owner ∧ r ∈ done then some (reopened b owner eid dropped r) else q.lanes[(o, r)]?) ∧
      ac.attempts = q.attempts ∧ ac.deadlines = q.deadlines) ⟨by simp, rfl, rfl⟩ (fun done r ac next _ hA hN => ?_) hOk
  simp only [openLane, run_ok] at hN
  obtain ⟨-, -, rfl⟩ := hN
  refine ⟨fun o ol => ?_, hA.2.1, hA.2.2⟩
  have hI := get_insert ac.lanes (owner, r) (o, ol) (reopened b owner eid dropped r)
  refine hI.trans ?_
  rw [hA.1]
  by_cases ho : o = owner <;> by_cases hR : ol = r <;>
    simp [ho, hR, eq_comm (a := r), eq_comm (a := owner)]

structure Reroutes (q : Queue) (previous : SemanticGeneration) (owner : IntentId) (relays : ExtTreeSet QueueRelayId)
    (q' : Queue) : Prop where
  opened : ∀ relay ∈ relays, ∃ eventId, q'.lanes[(owner, relay)]? =
    some (reopened q owner eventId (owner ∈ previous.members) relay)
  others : ∀ (other : IntentId) (relay : QueueRelayId), ¬ (other = owner ∧ relay ∈ relays) →
    q'.lanes[(other, relay)]? = if other ∈ previous.members then none else q.lanes[(other, relay)]?
  attempts : q'.attempts = q.attempts
  deadlines : q.Mirrors → ∀ (instant : Nat) (other : IntentId) (relay : QueueRelayId), q'.deadlines[(instant, other, relay)]? =
    if other ∈ previous.members then none else q.deadlines[(instant, other, relay)]?

theorem installSuccessorDeliveryLanes_reroutes (hOk : installSuccessorDeliveryLanes q pv next = .ok q') :
    ∃ owner, next.members.min? = some owner ∧ Reroutes q pv owner (routedRelays q next.members) q' := by
  unfold installSuccessorDeliveryLanes at hOk
  split at hOk
  · cases hOk
  next owner hO =>
  refine ⟨owner, hO, ?_⟩
  simp only [bind_ok] at hOk
  obtain ⟨dr, hr, hOk⟩ := hOk
  have hD := dropLanes_lanes hr
  have hd : q.Mirrors → ∀ (nw : Nat) (other : IntentId) (r : QueueRelayId),
      dr.deadlines[(nw, other, r)]? =
        if other ∈ pv.members then none else q.deadlines[(nw, other, r)]? := by
    intro h nw other r
    rw [hD.mirrors h nw other r, hD.lanes, h nw other r]
    by_cases hM : other ∈ pv.members <;> simp [hM]
  have hL : ∀ (other : IntentId) (r : QueueRelayId), dr.lanes[(other, r)]? =
      if other ∈ pv.members then none else q.lanes[(other, r)]? := by
    intro other r
    rw [hD.lanes]
    simp
  split_ifs at hOk with hZ
  · cases hOk
    refine ⟨fun r hR => ?_, fun other r _ => hL other r, hD.attempts, hd⟩
    rw [Std.ExtTreeSet.isEmpty_iff.mp hZ] at hR
    simp at hR
  simp only [bind_ok] at hOk
  obtain ⟨-, -, hOk⟩ := hOk
  obtain ⟨ho, hA, hS⟩ := openLanes_lanes hOk
  refine ⟨fun r hR => ⟨next.materialization.eventId, ?_⟩, fun other r hX => ?_,
    hA.trans hD.attempts, fun h nw other r => ?_⟩
  · rw [ho, if_pos ⟨rfl, Std.ExtTreeSet.mem_toList.mpr hR⟩]
  · rw [ho, if_neg (by simpa using hX)]
    exact hL other r
  · rw [hS]
    exact hd h nw other r

theorem Reroutes.mirrors (h : Reroutes q pv owner relays q')
    (hF : ∀ r ∈ relays, owner ∉ pv.members → q.lanes[(owner, r)]? = none) (hM : q.Mirrors) :
    q'.Mirrors := by
  intro nw o r
  rw [h.deadlines hM]
  by_cases ho : o = owner ∧ r ∈ relays
  · obtain ⟨rfl, hR⟩ := ho
    obtain ⟨ed, hL⟩ := h.opened r hR
    rw [hL]
    have hN : (reopened q o ed (decide (o ∈ pv.members)) r).deadlineAt nw = none := rfl
    refine Eq.trans ?_ hN.symm
    split_ifs with hm
    · rfl
    · rw [hM nw o r, hF r hR hm]
      rfl
  · rw [h.others o r ho]
    split_ifs
    · rfl
    · exact hM nw o r

theorem Reroutes.recorded (h : Reroutes q pv owner relays q')
    (hC : ∀ r ∈ relays, owner ∈ pv.members ∧ (q.lanes[(owner, r)]?).isSome ∨ q.Unused owner r)
    (hR : q.Recorded) : q'.Recorded := by
  intro o r ln hL od
  rw [h.attempts]
  by_cases ho : o = owner ∧ r ∈ relays
  · obtain ⟨rfl, hr⟩ := ho
    obtain ⟨ed, hp⟩ := h.opened r hr
    cases hp.symm.trans hL
    rcases hC r hr with ⟨hM, hS⟩ | ⟨hN, hU⟩
    · obtain ⟨ol, hO⟩ := isSome_iff_exists.mp hS
      rw [hR o r ol hO od]
      simp [reopened, hM, hO]
    rw [hU od]
    have hZ : (reopened q o ed (decide (o ∈ pv.members)) r).lastOrdinal = 0 := by
      simp [reopened, hN]
    rw [hZ]
    simp only [isSome_none, false_eq_true, false_iff]
    omega
  · rw [h.others o r ho] at hL
    split_ifs at hL
    exact hR o r ln hL od

/-- The lanes that a plan opens go on from lanes of its predecessor, or are where nothing has been attempted. -/
def Continues (plan : SemanticTransitionPlan) (q : Queue) : Prop :=
  ∀ (previous next : SemanticGeneration) (owner : IntentId), plan.removedGeneration = some previous →
    plan.next.bind (·.generation) = some next → next.members.min? = some owner →
    ∀ relay ∈ routedRelays q next.members,
      owner ∈ previous.members ∧ (q.lanes[(owner, relay)]?).isSome ∨ q.Unused owner relay

theorem SucceedsLanes.orderly (h : SucceedsLanes pl q q') (hC : Continues pl q)
    (ho : q.Orderly) : q'.Orderly ∧ q'.attempts = q.attempts := by
  unfold SucceedsLanes at h
  split at h
  · next pv next hp hN =>
    obtain ⟨owner, hO, hR⟩ := installSuccessorDeliveryLanes_reroutes h
    have hP := hC pv next owner hp hN hO
    refine ⟨⟨hR.mirrors (fun r hr hX => ?_) ho.mirrors, hR.recorded hP ho.recorded⟩,
      hR.attempts⟩
    rcases hP r hr with ⟨hM, -⟩ | ⟨hn, -⟩
    · exact absurd hM hX
    · exact hn
  · subst h
    exact ⟨ho, rfl⟩

theorem updateMember_delivery (co : Coordinate) (r : Option MaterializationRecord) (q : Queue)
    (e : SemanticReceiptUpdate × MemberRecord) : q.SameDelivery (updateMember co r q e) := by
  unfold updateMember
  dsimp only
  split_ifs
  · exact .refl _
  · exact .refl _

theorem signMember_delivery (co : Coordinate) (q : Queue) (e : IntentId × MemberRecord) :
    q.SameDelivery (SemanticStore.signMember co q e) :=
  .refl q

theorem sameDelivery_foldl {α : Type} {f : Queue → α → Queue}
    (hS : ∀ (q : Queue) (a : α), q.SameDelivery (f q a)) (en : List α)
    (q : Queue) : q.SameDelivery (en.foldl f q) := by
  induction en generalizing q with
  | nil => exact .refl q
  | cons e rs ih => exact (hS q e).trans (ih (f q e))

theorem writeQueue_delivery (co : Coordinate) (pl : SemanticTransitionPlan) (ni : Option NewIntent)
    (q : Queue) (mm : List (SemanticReceiptUpdate × MemberRecord)) :
    q.SameDelivery (writeQueue co pl ni q mm) := by
  have hM := sameDelivery_foldl (updateMember_delivery co (materializationRecord pl)) mm q
  cases ni with
  | none => exact hM
  | some n =>
    refine hM.trans ?_
    show Queue.SameDelivery _ (journalOperation co _ pl.receiptUpdates _ n)
    unfold journalOperation
    split
    · exact .refl _
    · exact .refl _

theorem Continues.of_same (h : Continues pl q) (hL : q'.lanes = q.lanes)
    (hA : q'.attempts = q.attempts) (hr : q'.routeRevisions = q.routeRevisions) : Continues pl q' := by
  intro pv next owner hP hN ho r hR
  have hR : r ∈ routedRelays q next.members := by
    unfold routedRelays at hR ⊢
    rwa [hr] at hR
  rw [hL]
  refine (h pv next owner hP hN ho r hR).imp_right fun hU => ?_
  exact ⟨hL ▸ hU.1, fun od => hA ▸ hU.2 od⟩

variable {w' : SemanticStore}

theorem Applies.orderly [ShardHash] (ap : Applies base co ni pl w')
    (hC : Continues pl base.store.queue) (ho : base.store.queue.Orderly) :
    w'.store.queue.Orderly ∧ w'.store.queue.attempts = base.store.queue.attempts := by
  have hW := writeQueue_delivery co pl ni base.store.queue ap.members
  have hP := hC.of_same hW.2.1 hW.2.2.2.1 hW.2.2.2.2.2
  obtain ⟨hA, ha⟩ := ap.hSucceeds.orderly hP (hW.lapses.orderly ho)
  rw [commit_queue ap.hCommit]
  exact ⟨hA, ha.trans hW.2.2.2.1⟩

theorem settleMember_lapses
    {e : IntentId × MemberRecord} (hOk : SemanticStore.settleMember co mat now q e = .ok q')
    (hI : ∀ (r : QueueRelayId) (ln : Lane), q.lanes[(e.1, r)]? = some ln → ln.state.isTerminal = true) :
    q'.lanes = q.lanes ∧ q.Lapses q' := by
  obtain ⟨i, mb⟩ := e
  simp only [SemanticStore.settleMember] at hOk
  rw [Queue.clearIntentDeadlines_of_idle fun r ln hL => Queue.deadline_of_terminal (hI r ln hL)] at hOk
  obtain ⟨rs, sequence, time, rfl⟩ := Queue.markTerminalReceipt_frame hOk
  exact ⟨rfl, .of_same rfl rfl rfl⟩

variable {w : SemanticStore} {close : SemanticCohortClose}

theorem SemanticStore.Closing.terminal [ProgramDigest] [ShardHash] (sh : w.Closing close now o w')
    {r : QueueRelayId}
    (ho : owner ∈ sh.generation.members) (hL : w.store.queue.lanes[(owner, r)]? = some ln) :
    ln.state.isTerminal = true := by
  have hC := sh.hDestinations
  simp only [SemanticStore.destinationsClosed, and_eq_true, all_eq_true] at hC
  have hW := hC.1.1 ((owner, r), ln) (mem_filter.mpr ⟨mem_toList.mpr hL, by simpa using ho⟩)
  cases hS : ln.state with
  | terminal => rfl
  | _ => simp [hS] at hW

theorem SemanticStore.Closing.lapses [ProgramDigest] [ShardHash] (sh : w.Closing close now o w') :
    w.store.queue.Lapses w'.store.queue := by
  rw [commit_queue (commit_store sh.hCommit)]
  refine (foldlM_induction (fun _ a => a.lanes = w.store.queue.lanes ∧ w.store.queue.Lapses a) ⟨rfl, .refl _⟩
    (fun done e a next hP hA hN => ?_) sh.hQueue).2
  have hE := (closingMembers_each sh.hMembers e (hP.subset (by simp))).1
  have hS := settleMember_lapses hN fun r ln hL =>
    sh.terminal (Std.ExtTreeSet.mem_toList.mp hE) (hA.1 ▸ hL)
  exact ⟨hS.1.trans hA.1, hA.2.trans hS.2⟩

inductive Call where
  | door (door : Door)
  | lane (door : LaneDoor)

namespace Call

def Authentic (bodies : Bodies) : Call → Prop
  | .door inner => inner.Authentic bodies
  | .lane _ => True

variable [ProgramDigest] [ShardHash]

inductive Runs (w : SemanticStore) : Call → SemanticStore → Prop
  | door {door : Door} {w' : SemanticStore} (hRuns : door.Runs w w') : Runs w (.door door) w'
  | lane {door : LaneDoor} {queue : Queue} (hOk : door.run w.store = .ok queue) :
      Runs w (.lane door) { w with store := { w.store with queue } }

omit [ShardHash] in
/-- Every lane that the call opens goes on from one of its predecessor, or is where nothing has been attempted. -/
def Continues (w : SemanticStore) : Call → Prop
  | .door (.accept _ _ acceptedAt edit) => ∀ plan,
      planAccept w.resources[coordinateKeyOf edit.coordinate]? w.highWater[coordinateKeyOf edit.coordinate]?
        w.store.queue.nextIntentId acceptedAt edit = .ok plan → Semantic.Continues plan w.store.queue
  | .door (.installSource install) => ∀ previous plan,
      w.resources[coordinateKeyOf install.successor.coordinate]? = some previous →
      planSourceInstall previous install = .ok plan → Semantic.Continues plan w.store.queue
  | .lane (.bootstrapLanes intentId) => ∀ relay ∈ (w.store.queue.intentRelays intentId).toList,
      w.store.queue.lanes[(intentId, relay)]? = none → w.store.queue.Unused intentId relay
  | _ => True

end Call

variable [ProgramDigest] [ShardHash]

def Door.run (w : SemanticStore) : Door → Option SemanticStore
  | .insert event source => (w.store.insert event source).toOption.map fun result => { w with store := result.2 }
  | .insertBatch deliveries => (w.store.insertBatch deliveries).toOption.map fun result => { w with store := result.2 }
  | .acceptWrite write now => (w.store.acceptWrite write now).toOption.map fun result => { w with store := result.2 }
  | .promoteSigned intentId verified =>
    (w.store.promoteSigned intentId verified).toOption.map fun result => { w with store := result.2 }
  | .compensateWrite intentId reason now =>
    (w.store.compensateWrite intentId reason now).toOption.map fun result => { w with store := result.2 }
  | .remove id => (w.store.remove id).toOption.map fun result => { w with store := result.2 }
  | .expireDue now => (w.store.expireDue now).toOption.map fun result => { w with store := result.2 }
  | .gc claimed => (w.store.gc claimed).toOption.map fun result => { w with store := result.2 }
  | .accept expectedPubkey signingIdentityRef acceptedAt edit =>
    (w.accept expectedPubkey signingIdentityRef acceptedAt edit).toOption.map (·.2)
  | .installSource install => (w.installSource install).toOption.map (·.2)
  | .promote coordinate revision digest materialization eventId verified =>
    (w.promote coordinate revision digest materialization eventId verified).toOption.map (·.2)
  | .closeCohort close now => (w.closeCohort close now).toOption.map (·.2)

def Call.run (w : SemanticStore) : Call → Option SemanticStore
  | .door inner => inner.run w
  | .lane inner => (inner.run w.store).toOption.map fun queue => { w with store := { w.store with queue } }

theorem Door.run_runs {doo : Door} (hR : doo.run w = some w') : doo.Runs w w' := by
  cases doo <;> simp only [Door.run, map_eq_some_iff, toOption_some, Prod.exists] at hR <;>
    obtain ⟨_, _, hOk, rfl⟩ := hR
  case insert => exact .insert hOk
  case insertBatch => exact .insertBatch hOk
  case acceptWrite => exact .acceptWrite hOk
  case promoteSigned => exact .promoteSigned hOk
  case compensateWrite => exact .compensateWrite hOk
  case remove => exact .remove hOk
  case expireDue => exact .expireDue hOk
  case gc => exact .gc hOk
  case accept => exact .accept hOk
  case installSource => exact .installSource hOk
  case promote => exact .promote hOk
  case closeCohort => exact .closeCohort hOk

theorem Call.run_runs {call : Call} (hR : call.run w = some w') : call.Runs w w' := by
  cases call with
  | door inn => exact .door (Door.run_runs hR)
  | lane inn =>
    simp only [Call.run, map_eq_some_iff, toOption_some] at hR
    obtain ⟨qu, hQ, rfl⟩ := hR
    exact .lane hQ

/-- Calls of all doors that meet what `allowed` asks lead from the first state to the second. -/
inductive Serves (allowed : SemanticStore → Call → Prop) (w : SemanticStore) : SemanticStore → Prop
  | refl : Serves allowed w w
  | step {w' w'' : SemanticStore} {call : Call} (before : Serves allowed w w') (hAllowed : allowed w' call)
      (hRuns : call.Runs w' w'') : Serves allowed w w''

variable {w w' : SemanticStore} {call : Call}

omit [ProgramDigest] in
theorem settled_thins (h : Settled bs w) (hT : w.store.queue.Thins q') :
    Settled bs { w with store := { w.store with queue := q' } } where
  sound := h.sound.with_queue ⟨fun id st hA => h.sound.queue.displaced id st (hT.displaced id st hA),
    fun id r ev sg hA hE => h.sound.queue.frozen id r ev sg (hT.intents id r hA) hE⟩
  rested := h.rested
  executed := by
    refine h.executed.step (fun _ hR => hR) (fun id st hA => ?_) fun id st hA => ?_
    · exact .old hA (.refl _) fun hS => hS
    · exact Store.Executed.same_stashes id st (hT.displaced id st hA)

omit [ShardHash] in
theorem LaneEffect.orderly (h : Queue.LaneEffect w.store.queue q' door)
    (hC : (Call.lane door).Continues w) (ho : w.store.queue.Orderly) :
    q'.Orderly ∧ w.store.queue.KeepsAttempts q' := by
  cases h with
  | lapsed hL _ => exact ⟨hL.orderly ho, hL.keepsAttempts⟩
  | moved hM hA hd => exact ⟨hM.orderly hA hd ho, .of_same hA⟩
  | started hM hA hd => exact hM.starts hA hd ho
  | opened hp => exact ⟨hp.orderly hC ho, .of_same hp.attempts⟩

theorem Transition.orderly (hS : Transition bs w door w') (h : w.store.Sound bs)
    (hC : (Call.door door).Continues w) (ho : w.store.queue.Orderly) :
    w'.store.queue.Orderly ∧ w.store.queue.KeepsAttempts w'.store.queue := by
  have hL : w.store.queue.Lapses w'.store.queue →
      w'.store.queue.Orderly ∧ w.store.queue.KeepsAttempts w'.store.queue :=
    fun hl => ⟨hl.orderly ho, hl.keepsAttempts⟩
  cases hS with
  | store hS => exact hL (hS.lapses h)
  | idle => exact hL (.refl _)
  | accepted ac =>
    have hD : w.store.queue.Lapses w.allocated.store.queue := .of_same rfl rfl rfl
    have hP : Continues ac.plan w.allocated.store.queue := (hC _ ac.hPlan).of_same rfl rfl rfl
    obtain ⟨hA, ha⟩ := ac.applies.orderly hP (hD.orderly ho)
    exact ⟨hA, .of_same ha⟩
  | installed is =>
    obtain ⟨hA, ha⟩ := is.applies.orderly (hC _ _ is.hPrevious is.hPlan) ho
    exact ⟨hA, .of_same ha⟩
  | promoted pr =>
    rename_i co r dg mt ed vr o
    have hs := sameDelivery_foldl (signMember_delivery co) pr.members w.store.queue
    rw [commit_queue (commit_store pr.hCommit)] at hL ⊢
    exact hL hs.lapses
  | closed sh => exact hL sh.lapses

theorem Call.Runs.orderly (hRuns : call.Runs w w') (h : Settled bs w) (hc : call.Authentic bs)
    (hC : call.Continues w) (ho : w.store.queue.Orderly) :
    Settled bs w' ∧ w'.store.queue.Orderly ∧ w.store.queue.KeepsAttempts w'.store.queue := by
  cases hRuns with
  | door hRuns =>
    have hS := hRuns.transition h.sound.events (by exact hc)
    exact ⟨hS.settled h, hS.orderly h.sound hC ho⟩
  | lane hOk =>
    obtain ⟨hE, hT⟩ := LaneDoor.run_effect hOk
    exact ⟨settled_thins h hT, LaneEffect.orderly hE hC ho⟩

abbrev ContinuingRun (bodies : Bodies) : SemanticStore → SemanticStore → Prop :=
  Serves fun w call => call.Authentic bodies ∧ call.Continues w

theorem Serves.orderly (hR : ContinuingRun bs {} w) : Settled bs w ∧ w.store.queue.Orderly := by
  induction hR with
  | refl => exact ⟨settled_empty, Queue.orderly_empty⟩
  | step _ hC hRuns ih =>
    obtain ⟨hT, hO, -⟩ := hRuns.orderly ih.1 hC.1 hC.2 ih.2
    exact ⟨hT, hO⟩

/-- As long as lanes are opened afresh only where nothing has been attempted, the deadlines mirror the lanes and can
always be read, the attempts of a lane are those up to its last ordinal, and no call replaces one. -/
theorem lanes_in_order (hRun : ContinuingRun bodies {} w) : w.store.queue.Mirrors ∧
      (∀ now limit : Nat, limit ≤ 1024 → ∃ due, w.store.queue.dueDeadlines now limit = .ok due) ∧
      (∃ next, w.store.queue.nextDeadline = .ok next) ∧ w.store.queue.Recorded ∧
      ∀ (call : Call) (w' : SemanticStore), call.Authentic bodies → call.Continues w → call.Runs w w' →
        w.store.queue.KeepsAttempts w'.store.queue := by
  obtain ⟨hS, ho⟩ := hRun.orderly
  refine ⟨ho.mirrors, ho.mirrors.dueDeadlines, ho.mirrors.nextDeadline, ho.recorded, ?_⟩
  exact fun call w' hc hC hRuns => (hRuns.orderly hS hc hC ho).2.2

theorem Serves.calls {al : SemanticStore → Call → Prop} {sr : SemanticStore} (b : Serves al sr w)
    {cl : List Call} (hC : ∀ call ∈ cl, ∀ st, al st call) (hR : cl.foldlM Call.run w = some w') :
    Serves al sr w' := by
  induction cl using List.reverseRecOn generalizing w' with
  | nil =>
    cases hR
    exact b
  | append_singleton done call ih =>
    simp only [List.foldlM_append, foldlM_cons, List.foldlM_nil, Option.bind_eq_bind, bind_eq_some_iff] at hR
    obtain ⟨m, hD, last, hL, hS⟩ := hR
    cases hS
    exact .step (ih (fun o hX => hC o (by simp [hX])) hD) (hC call (by simp) m) (Call.run_runs hL)

def thirdEdit (event : Event) : SemanticAccept :=
  { secondEdit event with
    expectedProgramDigest := some 2
    expectedCurrentMaterialization := some 2
    contributingOperations := [1, 2] }

/-- The second edit is signed and its intent delivers to relay 7; then a third edit replaces the generation. -/
def secondMemberDelivers : List Call :=
  [.door (.accept 2 "" 100 (defaultEdit (listEvent 9 100))),
    .door (.accept 2 "" 200 (secondEdit (listEvent 10 200))),
    .door (.promote relayList (.initial ⟨1, 1, .unresolved⟩) 2 2 10 ⟨10, 77⟩),
    .lane (.recordRouteRevision 2 (.ofList [7])),
    .lane (.bootstrapLanes 2),
    .lane (.setLaneEligible ⟨2, 10, 7⟩ 1 210),
    .lane (.startLaneAttempt ⟨2, 10, 7⟩ 2 { listEvent 10 200 with sig := 77 } 220),
    .door (.accept 2 "" 300 (thirdEdit (listEvent 11 300))),
    .door (.promote relayList (.initial ⟨1, 1, .unresolved⟩) 3 3 11 ⟨11, 78⟩),
    .lane (.bootstrapLanes 2),
    .lane (.setLaneEligible ⟨2, 11, 7⟩ 1 310)]

section
omit [ProgramDigest] [ShardHash]

/-- The lane of the second member is opened afresh for the third generation, and its next attempt is recorded over the
first one. -/
theorem successor_attempt_overwrites :
    ∃ w w' : SemanticStore,
      @Serves lengthDigest oneShard (fun _ call => call.Authentic listBodies) {} w ∧
      @Call.Runs lengthDigest oneShard w
        (.lane (.startLaneAttempt ⟨2, 11, 7⟩ 2 { listEvent 11 300 with sig := 78 } 320)) w' ∧
      w.store.queue.attempts[(2, 7, 1)]? = some (10, AttemptOutcome.started) ∧
      w'.store.queue.attempts[(2, 7, 1)]? = some (11, AttemptOutcome.started) := by
  let _ := lengthDigest
  let _ := oneShard
  have hR : ((secondMemberDelivers.foldlM Call.run {}).any fun w =>
      w.store.queue.attempts[(2, 7, 1)]? = some (10, AttemptOutcome.started) &&
      (Call.run w (.lane (.startLaneAttempt ⟨2, 11, 7⟩ 2 { listEvent 11 300 with sig := 78 } 320))).any fun w' =>
        w'.store.queue.attempts[(2, 7, 1)]? = some (11, AttemptOutcome.started)) = true := by
    -- the least member of a set does not evaluate, the head of its list does
    simp only [secondMemberDelivers, foldlM_cons, List.foldlM_nil, Call.run, Door.run, SemanticStore.accept, moveLanes,
      installSuccessorDeliveryLanes, Std.ExtTreeSet.min?_eq_head?_toList]
    decide +kernel
  simp only [any_eq_true, and_eq_true, decide_eq_true_eq] at hR
  obtain ⟨w, hc, hB, w', hS, hA⟩ := hR
  refine ⟨w, w', .calls .refl (fun call hC stt => ?_) hc, Call.run_runs hS, hB, hA⟩
  simp only [secondMemberDelivers, mem_cons, not_mem_nil, or_false] at hC
  rcases hC with rfl | rfl | rfl | rfl | rfl | rfl | rfl | rfl | rfl | rfl | rfl
  case inl | inr.inl | inr.inr.inr.inr.inr.inr.inr.inl =>
    rintro _ ⟨rfl⟩ _
    rfl
  all_goals exact trivial

def routedDraft : List Call :=
  [.door (.acceptWrite (listDraft (listEvent 9 100)) 100), .door (.promoteSigned 1 ⟨9, 77⟩),
    .lane (.recordRouteRevision 1 (.ofList [7]))]

def handedOff : List Call :=
  [.lane (.setLaneEligible ⟨1, 9, 7⟩ 1 110), .lane (.startLaneAttempt ⟨1, 9, 7⟩ 2 { listEvent 9 100 with sig := 77 } 120),
    .lane (.recordLaneHandoff ⟨1, 9, 7⟩ 3 1 ⟨130, .written⟩ (.awaitingAck 500))]

/-- A draft that waits for the acknowledgement of its first attempt. -/
theorem lanes_in_order_handed_off : ∃ w : SemanticStore, w.store.queue.Mirrors ∧ w.store.queue.Recorded ∧
      w.store.queue.deadlines[(500, 1, 7)]? = some (4, DeadlineKind.ackTimeout) := by
  let _ := lengthDigest
  let _ := oneShard
  have hr : ((routedDraft.foldlM Call.run {}).any fun rtd =>
      rtd.store.queue.attempts.isEmpty && (Call.run rtd (.lane (.bootstrapLanes 1))).any fun opened =>
        (handedOff.foldlM Call.run opened).any fun last =>
          last.store.queue.deadlines[(500, 1, 7)]? = some (4, DeadlineKind.ackTimeout)) = true := by
    decide +kernel
  simp only [any_eq_true, and_eq_true, decide_eq_true_eq] at hr
  obtain ⟨rtd, hR, hE, opened, hp, last, hL, hD⟩ := hr
  have hF : ContinuingRun listBodies {} rtd := by
    refine .calls .refl (fun call hC stt => ?_) hR
    simp only [routedDraft, mem_cons, not_mem_nil, or_false] at hC
    rcases hC with rfl | rfl | rfl
    · exact ⟨rfl, trivial⟩
    · exact ⟨trivial, trivial⟩
    · exact ⟨trivial, trivial⟩
  have he : ContinuingRun listBodies {} opened := by
    refine hF.step ⟨?_, ?_⟩ (Call.run_runs hp)
    · exact trivial
    intro rly _ hN
    refine ⟨hN, fun ord => ?_⟩
    rw [Std.ExtTreeMap.isEmpty_iff.mp hE]
    exact Std.ExtTreeMap.getElem?_empty
  have hW : ContinuingRun listBodies {} last := by
    refine .calls he (fun call hC stt => ?_) hL
    simp only [handedOff, mem_cons, not_mem_nil, or_false] at hC
    rcases hC with rfl | rfl | rfl <;> exact ⟨trivial, trivial⟩
  have ho := lanes_in_order hW
  exact ⟨last, ho.1, ho.2.2.2.1, hD⟩

end

end NmpStore.Semantic
