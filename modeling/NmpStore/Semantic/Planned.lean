import NmpStore.Semantic.Generations

/-! # What every plan for a coordinate has in common

Both planners list the operations of the resource without the resolved ones, tell every listed operation its new
state, and stamp a new generation later than everything it stands on.
-/

namespace NmpStore.Semantic

variable {rev : SourceRevision}

theorem addressOf_of_matches (h : matchesCoordinate ev co = true) :
    addressOf ev = addressOfCoordinate co := by
  simp only [matchesCoordinate, and_eq_true, decide_eq_true_eq, or_eq_true, Bool.not_eq_eq_eq_not,
    Bool.not_true] at h
  obtain ⟨⟨hA, hK⟩, hI⟩ := h
  simp only [addressOf, addressOfCoordinate, addressKeyFor, addressKeyForCoordinate, hA, hK]
  rcases hI with hP | hI
  · simp [hP]
  · simp [hI]

def listedIds (previous : Option SemanticResourceState) : List IntentId := memberIds (previous.elim [] (·.operations))

structure Materialized (coordinate : Coordinate) (previous : Option SemanticGeneration)
    (candidate : MaterializationCandidate) (sourceRevision : SourceRevision) (operations : List SemanticOperation)
    (generation : SemanticGeneration) : Prop where
  fits : matchesCoordinate candidate.event coordinate = true
  verified : candidate.verifiesId = true
  eventId : generation.materialization.eventId = candidate.event.id
  createdAt : generation.createdAt = candidate.event.createdAt
  members : generation.members = .ofList (memberIds operations)
  after_previous : ∀ old, previous = some old → old.createdAt < candidate.event.createdAt
  after_source : ∀ time, sourceRevision.createdAt = some time → time < candidate.event.createdAt

structure Partition (listed : List IntentId) (newIntent : Option IntentId) (operations : List SemanticOperation)
    (resolved : Table IntentId OperationResolution) : Prop where
  filtered : memberIds operations = listed.filter (fun id => (resolved[id]?).isNone) ++ newIntent.toList
  known : ∀ (id : IntentId) resolution, resolved[id]? = some resolution → id ∈ listed
  settled : ∀ (id : IntentId) resolution, resolved[id]? = some resolution →
    resolution ≠ .contributing

structure Planned (coordinate : Coordinate) (previous : Option SemanticResourceState) (newIntent : Option IntentId)
    (plan : SemanticTransitionPlan) : Prop where
  intro ::
  starts : plan.previous = previous
  removed : plan.removedGeneration =
    (previous.bind (·.generation)).filter fun old => plan.next.bind (·.generation) ≠ some old
  stays : ∀ next, plan.next = some next → next.coordinate = coordinate ∧ next.operations ≠ []
  candidate : ∀ candidate, plan.candidate = some candidate → ∃ next generation, plan.next = some next ∧
    next.generation = some generation ∧
    Materialized coordinate (previous.bind (·.generation)) candidate next.sourceRevision next.operations generation
  kept : plan.candidate = none → ∀ generation, plan.next.bind (·.generation) = some generation →
    previous.bind (·.generation) = some generation
  within : ∀ next generation, plan.next = some next → next.generation = some generation →
    ∀ member ∈ generation.members, member ∈ memberIds next.operations
  source : ∀ next row, plan.next = some next → next.source = some row →
    next.sourceRevision.createdAt = some row.event.createdAt
  updates : ∃ operations resolved, Partition (listedIds previous) newIntent operations resolved ∧
    plan.receiptUpdates = receiptUpdates operations (plan.next.bind (·.generation)) resolved ∧
    (∀ next, plan.next = some next → next.operations = operations) ∧ (plan.next = none → operations = [])

theorem following_lt (h : following (some time) = .ok next) : time < next := by
  simp only [following] at h
  split_ifs at h
  cases h
  exact Nat.lt_add_one time

theorem validateExactTimestamp_ok (h : validateExactTimestamp cd s pv ops = .ok ()) :
    (∀ o, pv = some o → o.createdAt < cd) ∧
      ∀ tm, s.createdAt = some tm → tm < cd := by
  simp only [validateExactTimestamp, bind_ok, refuseIf_ok, not_not] at h
  obtain ⟨sr, hS, priorTime, hP, rfl⟩ := h
  constructor
  · rintro o rfl
    exact (following_lt hP).trans_le (le_max_right _ _)
  · intro tm hT
    rw [hT] at hS
    exact (following_lt hS).trans_le ((le_max_right _ _).trans (le_max_left _ _))

variable {generation : SemanticGeneration}

theorem newGeneration_materialized [ProgramDigest]

    (h : newGeneration co cd srcRev pv o highWater = .ok generation) :
    Materialized co pv cd srcRev o generation := by
  simp only [newGeneration, validateMaterialized, run_ok,
    refuseIf_ok, Bool.not_eq_false, and_eq_true] at h
  obtain ⟨-, -, -, ⟨-, -, hF, hVerified⟩, ⟨⟩, hT, id, -, rfl⟩ := h
  obtain ⟨hP, hS⟩ := validateExactTimestamp_ok hT
  exact ⟨hF, hVerified, rfl, rfl, rfl, hP, hS⟩

theorem resolveOne_ok (h : resolveOne resolved op = .ok next) :
    op.resolution ≠ .contributing ∧ next = resolved.insert op.intentId op.resolution := by
  unfold resolveOne at h
  split at h
  · next hR =>
    simp only [run_ok] at h
    obtain ⟨-, -, -, -, rfl⟩ := h
    exact ⟨by simp [hR], rfl⟩
  · cases h
  · next hR hC =>
    simp only [run_ok] at h
    obtain ⟨-, -, rfl⟩ := h
    exact ⟨hC, rfl⟩

theorem resolvedOperations_settled
    (h : resolvedOperations o = .ok resolved) (id : IntentId)
    (resolution : OperationResolution) (hA : resolved[id]? = some resolution) :
    resolution ≠ .contributing ∧ id ∈ o.map (·.intentId) := by
  refine foldlM_induction (f := resolveOne) (fun done (tb : Table IntentId OperationResolution) =>
    ∀ (id : IntentId) resolution, tb[id]? = some resolution →
      resolution ≠ .contributing ∧ id ∈ done.map (·.intentId))
    (by simp) (fun done op a next _ ha hN => ?_) h id resolution hA
  obtain ⟨hT, rfl⟩ := resolveOne_ok hN
  intro id resolution hA
  rcases insert_some.mp hA with ⟨hI, rfl⟩ | ⟨-, hA⟩
  · exact ⟨hT, by simp [hI]⟩
  · obtain ⟨hn, hM⟩ := ha id resolution hA
    exact ⟨hn, by rw [map_append]; exact mem_append_left _ hM⟩

theorem validateResolutionPartition_known
    (h : validateResolutionPartition o contributing resolved = .ok ()) {id : IntentId} (hI : id ∈ resolved) :
    id ∈ memberIds o := by
  simp only [validateResolutionPartition, bind_ok] at h
  obtain ⟨-, -, -, -, h⟩ := h
  split at h
  · cases h
  next hN =>
  have hA := List.find?_eq_none.mp hN id (mem_append_right _ hI)
  simpa using hA

theorem memberIds_qualify (o : List SemanticOperation) (ev : SourceEvidence) :
    memberIds (qualifyOperations o ev) = memberIds o := by
  simp only [memberIds, qualifyOperations, map_map]
  refine List.map_congr_left fun op _ => ?_
  simp only [Function.comp_apply, qualifyOperation]
  split
  · split_ifs <;> rfl
  · rfl

theorem memberIds_filter (o : List SemanticOperation) (p : IntentId → Bool) :
    memberIds (o.filter fun op => p op.intentId) = (memberIds o).filter p := by
  simp only [memberIds, List.filter_map]
  rfl

theorem retainedGeneration_within (h : retainedGeneration pv o = some generation) :
    ∀ mb ∈ generation.members, mb ∈ memberIds o := by
  obtain ⟨-, hA⟩ := filter_eq_some_iff.mp h
  intro mb hM
  rw [Table.set_all_eq, all_eq_true] at hA
  simpa using hA mb (Std.ExtTreeSet.mem_toList.mpr hM)

theorem ofList_within (h : generation.members = .ofList (memberIds o)) :
    ∀ mb ∈ generation.members, mb ∈ memberIds o := by
  intro mb hM
  rw [h] at hM
  simpa using hM

theorem validSourceEvent_createdAt
    (h : validSourceEvent rev.evidence (some r) = true) : rev.createdAt = some r.event.createdAt := by
  unfold validSourceEvent at h
  unfold SourceRevision.createdAt
  split at h
  · next ed cr s hQ hS =>
    simp only [and_eq_true, decide_eq_true_eq] at h
    cases hS
    rw [hQ, h.1.2]
  · next hN => cases hN
  · cases h

theorem reconcile_evidence {pv : SourceRevision} {ev : SourceEvidence}
    (h : pv.reconcile ev = .ok rev) : rev.evidence = ev := by
  unfold SourceRevision.reconcile at h
  split_ifs at h with hS
  · cases h
    exact hS
  · cases h
    rfl

/-- The generation of a plan: the old one as long as its members are listed, or one of its own. -/
inductive Carries (coordinate : Coordinate) (previous : Option SemanticGeneration) (sourceRevision : SourceRevision)
    (operations : List SemanticOperation) : Option MaterializationCandidate → Option SemanticGeneration → Prop
  | kept {generation : Option SemanticGeneration} (hKept : ∀ current, generation = some current → previous = some current)
      (hWithin : ∀ current, generation = some current → ∀ member ∈ current.members, member ∈ memberIds operations) :
      Carries coordinate previous sourceRevision operations none generation
  | fresh {candidate : MaterializationCandidate} {generation : SemanticGeneration}
      (h : Materialized coordinate previous candidate sourceRevision operations generation) :
      Carries coordinate previous sourceRevision operations (some candidate) (some generation)

theorem carries_retained (co : Coordinate) (pv : Option SemanticGeneration) (sr : SourceRevision)
    (o : List SemanticOperation) :
    Carries co pv sr o none (retainedGeneration pv o) :=
  .kept (fun _ hKept => retainedGeneration_eq_some hKept) (fun _ hKept => retainedGeneration_within hKept)

theorem planned_transition {next : Option SemanticResourceState}

    {resolved : Table IntentId OperationResolution} {generation : Option SemanticGeneration}
    {last : Option MaterializationId} {cd : Option MaterializationCandidate}
    (hP : Partition (listedIds pv) ni operations resolved)
    (hc : Carries co (pv.bind (·.generation)) srcRev operations cd generation)
    (hn : next = none → operations = [] ∧ generation = none) (hs : ∀ st, next = some st → operations ≠ [])
    (hN : ∀ st, next = some st → st.coordinate = co ∧ st.operations = operations ∧
      st.generation = generation ∧ st.sourceRevision = srcRev ∧
      ∀ r, st.source = some r → srcRev.createdAt = some r.event.createdAt) :
    Planned co pv ni (transition pv next operations resolved generation last cd) := by
  have hB : next.bind (·.generation) = generation := by
    cases next with
    | none => exact (hn rfl).2.symm
    | some st => exact (hN st rfl).2.2.1
  refine ⟨rfl, ?_, fun st hS => ⟨(hN st hS).1, ?_⟩, ?_, ?_, ?_, ?_,
    operations, resolved, hP, ?_, fun st hS => (hN st hS).2.1, fun h => (hn h).1⟩
  · simp only [transition, hB]
  · rw [(hN st hS).2.1]
    exact hs st hS
  · rintro _ rfl
    cases hc with
    | fresh hM =>
      cases next with
      | none => cases (hn rfl).2
      | some st =>
        obtain ⟨-, hO, hG, hR, -⟩ := hN st rfl
        exact ⟨st, _, rfl, hG, hR ▸ hO ▸ hM⟩
  · rintro rfl c hC
    cases hc with
    | kept hKept _ => exact hKept c (hB ▸ hC)
  · rintro st c hS hC
    obtain ⟨-, hO, hG, -⟩ := hN st hS
    rw [hO]
    rw [hG] at hC
    cases hc with
    | kept _ hWithin => exact hWithin c hC
    | fresh hM =>
      cases hC
      exact ofList_within hM.members
  · intro st r hS hW
    obtain ⟨-, -, -, hR, hr⟩ := hN st hS
    rw [hR]
    exact hr r hW
  · simp only [transition, hB]

theorem partition_of_resolved

    (hD : resolvedOperations requested = .ok resolved)
    (hP : validateResolutionPartition (pv.elim [] (·.operations)) contributing resolved.keys = .ok ())
    (ho : memberIds o =
      (listedIds pv).filter (fun id => (resolved[id]?).isNone) ++ ni.toList) :
    Partition (listedIds pv) ni o resolved := by
  refine ⟨ho, fun id rs hA => ?_, fun id _ hA => (resolvedOperations_settled hD id _ hA).1⟩
  refine validateResolutionPartition_known hP ?_
  rw [mem_keys]
  exact mem_iff_isSome_getElem?.mpr (by rw [hA]; rfl)

variable [ProgramDigest]

theorem acceptGeneration_carries {pv generation : Option SemanticGeneration}
    (h : acceptGeneration a pv highWater srcRev o i acceptedAt = .ok generation) :
    Carries a.coordinate pv srcRev o a.materialized generation := by
  unfold acceptGeneration at h
  split at h
  · next hN =>
    cases h
    rw [hN]
    exact carries_retained _ _ _ _
  next cd hS =>
  simp only [run_ok] at h
  obtain ⟨-, -, -, -, fresh, hF, rfl⟩ := h
  rw [hS]
  exact .fresh (newGeneration_materialized hF)

theorem rematerializedGeneration_carries {pv : SemanticResourceState}
    {generation : Option SemanticGeneration}
    (h : rematerializedGeneration remat pv srcRev o = .ok generation) :
    Carries remat.coordinate pv.generation srcRev o remat.materialized generation ∧
      (o = [] → generation = none) := by
  unfold rematerializedGeneration at h
  split at h
  · next hN =>
    cases h
    rw [hN]
    exact ⟨.kept (by simp) (by simp), fun _ => rfl⟩
  · next ho hN =>
    cases h
    rw [hN]
    exact ⟨carries_retained _ _ _ _, fun hZ => by simp [hZ] at ho⟩
  · next cd ho hS =>
    simp only [run_ok] at h
    obtain ⟨-, -, -, -, fresh, hF, rfl⟩ := h
    rw [hS]
    exact ⟨.fresh (newGeneration_materialized hF), fun hZ => by simp [hZ] at ho⟩
  · cases h

theorem planAccept_planned (h : planAccept pv highWater i acceptedAt a = .ok pl) :
    Planned a.coordinate pv (some i) pl := by
  simp only [planAccept, run_ok] at h
  obtain ⟨-, -, -, -, -, -, -, -, -, -, -, -, -, -, revision, -, resolved, hD, ⟨⟩, hP, requirement, -, -, -,
    generation, hG, rfl⟩ := h
  refine planned_transition (partition_of_resolved hD hP ?_) (acceptGeneration_carries hG)
    (fun hN => by cases hN) (fun _ _ => ?_) fun st hS => ?_
  · rw [memberIds_qualify, listedIds, ← memberIds_filter]
    simp [memberIds]
  · simp [qualifyOperations]
  · cases hS
    refine ⟨rfl, rfl, rfl, rfl, fun r hW => validSourceEvent_createdAt ?_⟩
    exact find?_some (p := fun s => validSourceEvent revision.evidence (some s)) hW

theorem planSourceInstall_planned {pv : SemanticResourceState} (h : planSourceInstall pv install = .ok plan) :
    Planned install.successor.coordinate (some pv) none plan := by
  simp only [planSourceInstall, planRematerialize, validateSourceEvent, run_ok,
    refuseIf_ok, Bool.not_eq_false] at h
  obtain ⟨-, hs, -, -, -, -, plan, ⟨-, -, -, -, -, -, revision, hR, resolved, hD, ⟨⟩, hp, -, -,
    generation, hG, rfl⟩, rfl⟩ := h
  obtain ⟨hC, hE⟩ := rematerializedGeneration_carries hG
  have hT : revision.createdAt = some install.source.event.createdAt := by
    refine validSourceEvent_createdAt ?_
    rw [reconcile_evidence hR]
    exact hs
  refine planned_transition (partition_of_resolved hD hp ?_) hC (fun hN => ?_)
    (fun st hS => ?_) fun st hS => ?_
  · rw [memberIds_qualify, listedIds, memberIds_filter _ fun id => (resolved[id]?).isNone]
    simp
  · simp only [transition, Option.map_eq_none_iff, ite_eq_left_iff, reduceCtorEq, imp_false, not_not] at hN
    exact ⟨hN, hE hN⟩
  · simp only [transition, map_eq_some_iff] at hS
    obtain ⟨p, hP, rfl⟩ := hS
    split_ifs at hP with hZ
    exact hZ
  · simp only [transition, map_eq_some_iff] at hS
    obtain ⟨p, hP, rfl⟩ := hS
    split_ifs at hP
    cases hP
    refine ⟨rfl, rfl, rfl, rfl, fun r hW => ?_⟩
    cases hW
    exact hT

theorem planAccept_candidate
    (h : planAccept pv highWater i acceptedAt a = .ok pl) : pl.candidate = a.materialized := by
  simp only [planAccept, run_ok] at h
  obtain ⟨-, -, -, -, -, -, -, -, -, -, -, -, -, -, revision, -, resolved, -, -, -, requirement, -, -, -, generation, -,
    rfl⟩ := h
  rfl

variable {next : SemanticResourceState}

theorem planAccept_evidence (h : planAccept pv highWater i acceptedAt a = .ok pl)
    (hN : pl.next = some next) : next.sourceRevision.evidence = a.source := by
  simp only [planAccept, run_ok] at h
  obtain ⟨-, -, -, -, -, -, -, -, -, -, -, -, -, -, revision, hR, resolved, -, -, -, requirement, -, -, -, generation,
    -, rfl⟩ := h
  cases hN
  cases pv with
  | none =>
    cases hR
    rfl
  | some st => exact reconcile_evidence hR

theorem planSourceInstall_candidate (h : planSourceInstall pv install = .ok plan) :
    plan.candidate = install.successor.materialized := by
  simp only [planSourceInstall, planRematerialize, run_ok] at h
  obtain ⟨-, -, -, -, -, -, plan, ⟨-, -, -, -, -, -, revision, -, resolved, -, -, -, -, -, generation, -, rfl⟩, rfl⟩ := h
  rfl

theorem planSourceInstall_qualified
    (h : planSourceInstall pv install = .ok plan)
    (hN : plan.next = some next) : next.sourceRevision.evidence.qualified ≠ .unresolved := by
  intro hU
  have hP := planSourceInstall_planned h
  simp only [planSourceInstall, run_ok] at h
  obtain ⟨-, -, -, -, -, -, plan, -, rfl⟩ := h
  obtain ⟨p, -, rfl⟩ := map_eq_some_iff.mp hN
  have hU : p.sourceRevision.evidence.qualified = .unresolved := hU
  have hT := hP.source _ install.source hN rfl
  simp [SourceRevision.createdAt, hU] at hT

end NmpStore.Semantic
