import NmpStore.Semantic.Effects
import NmpStore.Store.Deletions

/-! # Runs of the store with its semantic resources

A run calls the doors of the store one after the other.
-/

namespace NmpStore.Semantic

inductive Door where
  | insert (event : Event) (source : RelayObserved)
  | insertBatch (deliveries : List Delivery)
  | acceptWrite (accept : AcceptWrite) (now : Nat)
  | promoteSigned (intentId : IntentId) (verified : VerifiedSignature)
  | compensateWrite (intentId : IntentId) (reason : CompensationReason) (now : Nat)
  | remove (id : EventId)
  | expireDue (now : Nat)
  | gc (claimed : Event → Bool)
  | accept (expectedPubkey : PublicKey) (signingIdentityRef : String) (acceptedAt : Nat) (accept : SemanticAccept)
  | installSource (install : SemanticSourceInstall)
  | promote (coordinate : Coordinate) (revision : SourceRevision) (digest : SemanticProgramDigest)
      (materialization : MaterializationId) (eventId : EventId) (verified : VerifiedSignature)
  | closeCohort (close : SemanticCohortClose) (now : Nat)

namespace Door

def Authentic (bodies : Bodies) : Door → Prop
  | .insert event _ => NmpStore.Authentic bodies event
  | .insertBatch deliveries => ∀ delivery ∈ deliveries, NmpStore.Authentic bodies delivery.1
  | .acceptWrite write _ => NmpStore.Authentic bodies write.frozen
  | .accept _ _ _ edit => ∀ candidate, edit.materialized = some candidate → candidate.Authentic bodies
  | .installSource install =>
    ∀ candidate, install.successor.materialized = some candidate → candidate.Authentic bodies
  | _ => True

variable [ProgramDigest] [ShardHash]

inductive Runs (w : SemanticStore) : Door → SemanticStore → Prop
  | insert {event : Event} {source : RelayObserved} {outcome : InsertOutcome} {s' : Store}
      (hOk : w.store.insert event source = .ok (outcome, s')) : Runs w (.insert event source) { w with store := s' }
  | insertBatch {deliveries : List Delivery} {outcomes : List InsertOutcome} {s' : Store}
      (hOk : w.store.insertBatch deliveries = .ok (outcomes, s')) : Runs w (.insertBatch deliveries) { w with store := s' }
  | acceptWrite {accept : AcceptWrite} {now : Nat} {outcome : AcceptOutcome} {s' : Store}
      (hOk : w.store.acceptWrite accept now = .ok (outcome, s')) : Runs w (.acceptWrite accept now) { w with store := s' }
  | promoteSigned {intentId : IntentId} {verified : VerifiedSignature} {outcome : PromoteOutcome} {s' : Store}
      (hOk : w.store.promoteSigned intentId verified = .ok (outcome, s')) :
      Runs w (.promoteSigned intentId verified) { w with store := s' }
  | compensateWrite {intentId : IntentId} {reason : CompensationReason} {now : Nat} {outcome : CompensateOutcome}
      {s' : Store} (hOk : w.store.compensateWrite intentId reason now = .ok (outcome, s')) :
      Runs w (.compensateWrite intentId reason now) { w with store := s' }
  | remove {id : EventId} {gone : Option StoredEvent} {s' : Store} (hOk : w.store.remove id = .ok (gone, s')) :
      Runs w (.remove id) { w with store := s' }
  | expireDue {now : Nat} {removed : List StoredEvent} {s' : Store} (hOk : w.store.expireDue now = .ok (removed, s')) :
      Runs w (.expireDue now) { w with store := s' }
  | gc {claimed : Event → Bool} {report : Store.GcReport} {s' : Store} (hOk : w.store.gc claimed = .ok (report, s')) :
      Runs w (.gc claimed) { w with store := s' }
  | accept {expectedPubkey : PublicKey} {signingIdentityRef : String} {acceptedAt : Nat} {accept : SemanticAccept}
      {outcome : SemanticAcceptOutcome} {w' : SemanticStore}
      (hOk : w.accept expectedPubkey signingIdentityRef acceptedAt accept = .ok (outcome, w')) :
      Runs w (.accept expectedPubkey signingIdentityRef acceptedAt accept) w'
  | installSource {install : SemanticSourceInstall} {outcome : SemanticInstallOutcome} {w' : SemanticStore}
      (hOk : w.installSource install = .ok (outcome, w')) : Runs w (.installSource install) w'
  | promote {coordinate : Coordinate} {revision : SourceRevision} {digest : SemanticProgramDigest}
      {materialization : MaterializationId} {eventId : EventId} {verified : VerifiedSignature}
      {outcome : SemanticPromoteOutcome} {w' : SemanticStore}
      (hOk : w.promote coordinate revision digest materialization eventId verified = .ok (outcome, w')) :
      Runs w (.promote coordinate revision digest materialization eventId verified) w'
  | closeCohort {close : SemanticCohortClose} {now : Nat} {outcome : SemanticCohortCloseOutcome} {w' : SemanticStore}
      (hOk : w.closeCohort close now = .ok (outcome, w')) : Runs w (.closeCohort close now) w'

end Door

variable [ProgramDigest] [ShardHash]

inductive Reaches (allowed : SemanticStore → Door → Prop) (w : SemanticStore) : SemanticStore → Prop
  | refl : Reaches allowed w w
  | step {w' w'' : SemanticStore} {door : Door} (before : Reaches allowed w w') (hAllowed : allowed w' door)
      (hRuns : door.Runs w' w'') : Reaches allowed w w''

variable {w w' : SemanticStore} {door : Door}

/-- A call is a step of the store below, or it changes nothing, or it carries a semantic door out. -/
inductive Transition (bodies : Bodies) (w : SemanticStore) : Door → SemanticStore → Prop
  | store {door : Door} {w' : SemanticStore} (hStep : Store.Step bodies w.store w'.store) (hSame : w.SameResources w') :
      Transition bodies w door w'
  | idle {door : Door} : Transition bodies w door w
  | accepted {expectedPubkey : PublicKey} {signingIdentityRef : String} {acceptedAt : Nat} {edit : SemanticAccept}
      {w' : SemanticStore} (accepting : w.Accepting expectedPubkey signingIdentityRef acceptedAt edit w')
      (hBodies : ∀ candidate, edit.materialized = some candidate → candidate.Authentic bodies) :
      Transition bodies w (.accept expectedPubkey signingIdentityRef acceptedAt edit) w'
  | installed {install : SemanticSourceInstall} {w' : SemanticStore} (installing : w.Installing install w')
      (hBodies : ∀ candidate, install.successor.materialized = some candidate → candidate.Authentic bodies) :
      Transition bodies w (.installSource install) w'
  | promoted {coordinate : Coordinate} {revision : SourceRevision} {digest : SemanticProgramDigest}
      {materialization : MaterializationId} {eventId : EventId} {verified : VerifiedSignature}
      {outcome : SemanticPromoteOutcome} {w' : SemanticStore}
      (promotion : w.Promotion coordinate ⟨materialization, eventId⟩ verified outcome w') :
      Transition bodies w (.promote coordinate revision digest materialization eventId verified) w'
  | closed {close : SemanticCohortClose} {now : Nat} {outcome : SemanticCohortCloseOutcome} {w' : SemanticStore}
      (closing : w.Closing close now outcome w') : Transition bodies w (.closeCohort close now) w'

theorem Door.Runs.transition (hOk : w.store.events.Ok) (hD : door.Authentic bs) (hRuns : door.Runs w w') :
    Transition bs w door w' := by
  cases hRuns with
  | insert hR => exact .store (.insert hD hR) ⟨rfl, rfl⟩
  | insertBatch hR => exact .store (.insertBatch hD hR) ⟨rfl, rfl⟩
  | acceptWrite hR => exact .store (.acceptWrite hD hR) ⟨rfl, rfl⟩
  | promoteSigned hR => exact .store (.promoteSigned hR) ⟨rfl, rfl⟩
  | compensateWrite hR => exact .store (.compensateWrite hR) ⟨rfl, rfl⟩
  | remove hR => exact .store (.remove hR) ⟨rfl, rfl⟩
  | expireDue hR => exact .store (.expireDue hR) ⟨rfl, rfl⟩
  | gc hR => exact .store (.gc hR) ⟨rfl, rfl⟩
  | accept hR =>
    rcases SemanticStore.accept_cases hOk hR with rfl | ⟨⟨ac⟩⟩
    · exact .idle
    · exact .accepted ac hD
  | installSource hR =>
    rcases SemanticStore.installSource_cases hOk hR with rfl | ⟨⟨is⟩⟩
    · exact .idle
    · exact .installed is hD
  | promote hR =>
    rcases SemanticStore.promote_cases hR with ⟨-, rfl⟩ | ⟨⟨pr⟩⟩
    · exact .idle
    · exact .promoted pr
  | closeCohort hR =>
    rcases SemanticStore.closeCohort_cases hR with rfl | ⟨⟨sh⟩⟩
    · exact .idle
    · exact .closed sh

structure Settled (bodies : Bodies) (w : SemanticStore) : Prop where
  sound : w.store.Sound bodies
  rested : w.store.events.Rested
  executed : w.store.Executed

omit [ProgramDigest] in
theorem settled_empty : Settled bs {} := ⟨Store.sound_empty, EventTables.rested_empty, Store.executed_empty⟩

theorem Transition.keeps (h : Settled bs w) (hStep : Transition bs w door w') :
    Store.Keeps bs w.store w'.store := by
  cases hStep with
  | store hStep _ => exact h.sound.step h.rested hStep
  | idle => exact .refl h.sound h.rested
  | accepted ac hBodies => exact ac.keeps h.sound hBodies
  | installed is hBodies => exact is.keeps h.sound hBodies
  | promoted pr => exact pr.keeps h.sound
  | closed sh => exact sh.keeps h.sound

section
omit [ProgramDigest]

theorem Applies.executed
    (ap : Applies base co ni pl w') (h : base.store.Sound bs) (hE : base.store.Executed)
    (hP : Planned co pv drawn pl)
    (hBodies : ∀ cd, pl.candidate = some cd → cd.Authentic bs) : w'.store.Executed := by
  have hR := ap.materializes h hP hBodies
  have hJ := (writeQueue_journals co pl ni base.store.queue ap.members).trans
    ap.hLanes.journals
  have hD : Store.Executed { base.store with
      events := ap.events
      queue := ap.queue } := by
    refine hE.step (fun _ hr => hr) (fun id st hAt => ?_) fun k st hAt => ?_
    · rcases hR.row_cases hAt with hO | ⟨cd, generation, -, -, -, rfl⟩
      · exact .old hO (.refl _) fun hS => hS
      · exact .draft rfl
    · rw [hJ.displaced] at hAt
      exact Store.Executed.same_stashes k st hAt
  exact hD.commits (Store.commit_ok (hR.ok h.events) ap.hCommit)

theorem SemanticStore.Promotion.executed
    (prom : w.Promotion coordinate mat ver o w') (h : Settled bodies w) :
    w'.store.Executed := by
  obtain ⟨events, hOk, hr, hC⟩ := prom.rows h.sound.events
  have hAt : w.store.events.rowAt prom.address = some prom.row :=
    (EventTables.loadAt_cases h.sound.events prom.hRow).symm
  have hJ := journalsOperations_foldl (signMember_journals coordinate) prom.members w.store.queue
  have hD : Store.Executed { w.store with
      events
      queue := prom.members.foldl (SemanticStore.signMember coordinate) w.store.queue } := by
    refine h.executed.step (fun _ hR => hR) (fun id st hF => ?_) fun k st hF => ?_
    · have hF : events.rowOf id = some st := hF
      rw [hr, update_apply] at hF
      split_ifs at hF
      · cases hF
        refine .settled fun hd => ?_
        obtain ⟨-, hA⟩ := h.sound.events.rowAt_some.mp hAt
        have hd : prom.row.event.isDeletion = true := hd
        cases (addressOf_isDeletion hd).symm.trans hA
      · exact .old hF (.refl _) fun hS => hS
    · rw [hJ.displaced] at hF
      exact Store.Executed.same_stashes k st hF
  exact hD.commits (Store.commit_ok hOk hC)

end

theorem Transition.settled (h : Settled bs w) (hStep : Transition bs w door w') : Settled bs w' := by
  have hK := hStep.keeps h
  refine ⟨hK.sound, hK.rested, ?_⟩
  cases hStep with
  | store hStep _ => exact Store.executed_survives.step h.executed h.sound hStep
  | idle => exact h.executed
  | accepted ac hBodies =>
    have hB : w.allocated.store.Sound bs := h.sound.with_queue ⟨h.sound.queue.displaced, h.sound.queue.frozen⟩
    refine ac.applies.executed hB ⟨h.executed.refused, h.executed.stashed⟩ ac.planned ?_
    exact fun cd hC => hBodies cd (planAccept_candidate ac.hPlan ▸ hC)
  | installed is hBodies =>
    refine is.applies.executed h.sound h.executed is.planned ?_
    exact fun cd hC => hBodies cd (planSourceInstall_candidate is.hPlan ▸ hC)
  | promoted pr => exact pr.executed h
  | closed sh =>
    have hD : Store.Executed { w.store with queue := sh.queue } :=
      h.executed.thinned (fun _ hR => hR) (fun _ _ hAt => hAt) sh.journals.displaced
    exact hD.commits (Store.commit_ok h.sound.events (commit_store sh.hCommit))

theorem Door.Runs.settled (h : Settled bs w) (hD : door.Authentic bs) (hRuns : door.Runs w w') :
    Settled bs w' ∧ w.store.Remembers w'.store := by
  have hStep := hRuns.transition h.sound.events hD
  exact ⟨hStep.settled h, (hStep.keeps h).remembers⟩

theorem Reaches.settled {al : SemanticStore → Door → Prop}
    (hAllowed : ∀ st cl, al st cl → cl.Authentic bs) (h : Settled bs w)
    (hR : Reaches al w w') : Settled bs w' ∧ w.store.Remembers w'.store := by
  induction hR with
  | refl => exact ⟨h, .refl _⟩
  | step _ hD hRuns ih =>
    obtain ⟨hN, hr⟩ := hRuns.settled ih.1 (hAllowed _ _ hD)
    exact ⟨hN, ih.2.trans hr⟩

abbrev AuthenticRun (bodies : Bodies) : SemanticStore → SemanticStore → Prop :=
  Reaches fun _ door => door.Authentic bodies

/-- The call that commits a signed deletion: a relay brings it, new, known or as the signature of a draft, or its
draft is promoted. -/
inductive CommitsDeletion (bodies : Bodies) (deletion : Event) (w : SemanticStore) : SemanticStore → Prop
  | inserted {source : RelayObserved} {outcome : InsertOutcome} {s' : Store} (hEvent : Authentic bodies deletion)
      (hOk : w.store.insert deletion source = .ok (outcome, s')) (hSettles : outcome.settles = true) :
      CommitsDeletion bodies deletion w { w with store := s' }
  | delivered {deliveries : List Delivery} {outcomes : List InsertOutcome} {s' : Store} {i : Nat}
      {source : RelayObserved} {outcome : InsertOutcome}
      (hEvents : ∀ delivery ∈ deliveries, Authentic bodies delivery.1)
      (hOk : w.store.insertBatch deliveries = .ok (outcomes, s')) (hAt : deliveries[i]? = some (deletion, source))
      (hOutcome : outcomes[i]? = some outcome) (hSettles : outcome.settles = true) :
      CommitsDeletion bodies deletion w { w with store := s' }
  | promoted {intentId : IntentId} {verified : VerifiedSignature} {row : StoredEvent} {coSigned : List IntentId}
      {s' : Store} (hOk : w.store.promoteSigned intentId verified = .ok (.promoted row coSigned, s'))
      (hRow : row.event = deletion) : CommitsDeletion bodies deletion w { w with store := s' }

theorem CommitsDeletion.refused (h : Settled bs w) (hD : deletion.isDeletion = true)
    (hC : CommitsDeletion bs deletion w w') : Settled bs w' ∧ w'.store.Refused deletion := by
  cases hC with
  | inserted hEvent hOk hSettles =>
    have hRuns : (Door.insert deletion _).Runs w _ := .insert hOk
    refine ⟨(hRuns.settled h (by exact hEvent)).1, ?_⟩
    obtain ⟨m, hI, hL⟩ := h.sound.insert_ok hEvent hOk
    have hR := h.executed.ingests_refused hD (h.sound.sameBody hEvent) hI hSettles
    exact hR.remembers (hL.sound.with_commit hL.commits).2
  | delivered hEvents hOk hAt hOutcome hSettles =>
    have hRuns : (Door.insertBatch _).Runs w _ := .insertBatch hOk
    exact ⟨(hRuns.settled h (by exact hEvents)).1,
      Store.insertBatch_refused h.executed h.sound hEvents hOk hAt hOutcome hD hSettles⟩
  | promoted hOk hRow =>
    have hRuns : (Door.promoteSigned _ _).Runs w _ := .promoteSigned hOk
    refine ⟨(hRuns.settled h (by exact trivial)).1, ?_⟩
    rw [← hRow]
    exact Store.promotes_refused (hRow ▸ hD) (h.sound.promoteSigned_ok hOk)

/-- Once a signed deletion has been committed, no later state stores an event of its author that it names, by id or by
an address up to its own time. -/
theorem deletion_permanent {deletion : Event} (hDeletion : deletion.isDeletion = true) {w w' later : SemanticStore}
    (hBefore : AuthenticRun bodies {} w) (hCommit : CommitsDeletion bodies deletion w w')
    (hAfter : AuthenticRun bodies w' later) (id : EventId) (st : StoredEvent)
    (hAt : later.store.events.rowOf id = some st) :
    ¬ (st.event.pubkey = deletion.pubkey ∧ st.event.id ∈ deletion.tags.eventIds) ∧
      ∀ coordinate ∈ deletion.tags.coordinates, ∀ address, coordinate.publicKey = deletion.pubkey →
        addressOfCoordinate coordinate = some address → addressOf st.event = some address →
        deletion.createdAt < st.event.createdAt := by
  obtain ⟨hS, -⟩ := hBefore.settled (fun _ _ hD => hD) settled_empty
  obtain ⟨hM, hr⟩ := hCommit.refused hS hDeletion
  obtain ⟨hL, hR⟩ := hAfter.settled (fun _ _ hD => hD) hM
  have hAllowed := hL.sound.allowed id st hAt
  have hN : ¬ deletion.Names st.event := fun hn => by
    have he := (hr.remembers hR) st.event hn
    cases hAllowed.symm.trans he
  refine ⟨fun ⟨ha, hI⟩ => hN (.inl ⟨hI, ha⟩), ?_⟩
  intro coordinate hC address ho hA hH
  by_contra hE
  refine hN (.inr ⟨address, ?_, hH, not_lt.mp hE⟩)
  exact Store.mem_ownAddresses.mpr ⟨coordinate, hC, ho, hA⟩

omit [ProgramDigest] [ShardHash] in
/-- The deletion comes first and keeps the note out when a relay brings it afterwards. -/
theorem deletion_permanent_late_note :
    ∃ w later : SemanticStore, @CommitsDeletion oneShard (fun id => if id = 8 then noteDeletion else Store.expiringNote)
        noteDeletion {} w ∧
      @AuthenticRun lengthDigest oneShard (fun id => if id = 8 then noteDeletion else Store.expiringNote) w later ∧
      ∀ st, later.store.events.rowOf 7 = some st → st.event.pubkey ≠ 3 := by
  let bodies : Bodies := fun id => if id = 8 then noteDeletion else Store.expiringNote
  let _ := lengthDigest
  let _ := oneShard
  have hR : ((Store.insert {} noteDeletion ⟨"wss://relay", 21⟩).toOption.any fun first =>
      first.1.settles && (Store.insert first.2 Store.expiringNote ⟨"wss://relay", 22⟩).toOption.isSome) = true := by
    decide +kernel
  simp only [any_eq_true, toOption_some, and_eq_true, isSome_iff_exists] at hR
  obtain ⟨⟨outcome, s⟩, hF, hSettles, ⟨vrd, s'⟩, hS⟩ := hR
  have hC : CommitsDeletion bodies noteDeletion {} { store := s } := .inserted (by exact .refl _) hF hSettles
  have hL : AuthenticRun bodies { store := s } { store := s' } := .step .refl (by exact .refl _) (.insert hS)
  refine ⟨_, _, hC, hL, fun st hAt hA => ?_⟩
  have hs := (hL.settled (fun _ _ hD => hD) (hC.refused settled_empty rfl).1).1
  have hI := hs.sound.events.rowOf_id hAt
  exact (deletion_permanent rfl .refl hC hL 7 st hAt).1 ⟨hA, by simp [hI, noteDeletion]⟩

end NmpStore.Semantic
