import NmpStore.Postings.Flush
import NmpStore.Semantic.Ops

/-! # Generations of a coordinate

Every generation of a coordinate takes the id that follows the high-water mark, also when the resource has been closed
and is created again.
-/

namespace NmpStore.Semantic

inductive AdvancesIds (highWater : Option MaterializationId) (previous : Option SemanticGeneration)
    (plan : SemanticTransitionPlan) : Prop
  | kept (hCandidate : plan.candidate = none) (hWater : plan.materializationHighWater = highWater)
      (hNext : ∀ next, plan.next = some next →
        next.lastMaterializationId = highWater ∧ ∀ generation ∈ next.generation, previous = some generation)
  | fresh {candidate : MaterializationCandidate} {next : SemanticResourceState} {generation : SemanticGeneration}
      (hCandidate : plan.candidate = some candidate) (hNext : plan.next = some next)
      (hGeneration : next.generation = some generation)
      (hId : generation.materialization = ⟨highWater.getD 0 + 1, candidate.event.id⟩)
      (hLast : next.lastMaterializationId = some (highWater.getD 0 + 1))
      (hWater : plan.materializationHighWater = some (highWater.getD 0 + 1))

theorem validResourceState_generation (h : validResourceState st = true)
    (hGeneration : st.generation = some gen) :
    st.lastMaterializationId = some gen.materialization.materializationId := by
  simp only [validResourceState, and_eq_true] at h
  have hA := h.1.1.2
  simp only [hGeneration, Option.all_some, and_eq_true, decide_eq_true_eq] at hA
  exact hA.2

variable {previous : Option SemanticGeneration}

theorem retainedGeneration_eq_some (h : retainedGeneration previous o = some gen) :
    previous = some gen :=
  (filter_eq_some_iff.mp h).1

variable [ProgramDigest]

theorem newGeneration_materialization
    (h : newGeneration co cd srcRev previous o highWater = .ok gen) :
    gen.materialization = ⟨highWater.getD 0 + 1, cd.event.id⟩ := by
  simp only [newGeneration, nextMaterializationId, run_ok] at h
  obtain ⟨-, -, -, -, -, -, id, hId, rfl⟩ := h
  split_ifs at hId
  rw [pure_ok] at hId
  subst hId
  rfl

variable {previous : Option SemanticResourceState}

omit [ProgramDigest] in
theorem or_highWater_eq
    (o : List SemanticOperation) (hV : ∀ st ∈ previous, validResourceState st = true)
    (hWater : ∀ st ∈ previous, st.lastMaterializationId = highWater) :
    ((retainedGeneration (previous.bind (·.generation)) o).map
      (·.materialization.materializationId)).or highWater = highWater := by
  cases hK : retainedGeneration (previous.bind (·.generation)) o with
  | none => rfl
  | some gn =>
    obtain ⟨st, hState, hGeneration⟩ := bind_eq_some_iff.mp (retainedGeneration_eq_some hK)
    rw [← hWater st hState, validResourceState_generation (hV st hState) hGeneration]
    rfl

variable {accept : SemanticAccept}

theorem planAccept_advancesIds (h : planAccept previous highWater i acceptedAt accept = .ok pl) :
    AdvancesIds highWater (previous.bind (·.generation)) pl := by
  simp only [planAccept, run_ok, refuseIf_ok] at h
  obtain ⟨-, -, -, -, -, -, -, hV, -, -, -, hWater, -, -, revision, -, resolved, -, -, -, requirement, -, -, -,
    generation, hGeneration, rfl⟩ := h
  have hV : ∀ st ∈ previous, validResourceState st = true := by
    intro st hState
    simpa [Option.mem_def.mp hState] using hV
  have hWater : ∀ st ∈ previous, st.lastMaterializationId = highWater := by
    intro st hState
    simpa [Option.mem_def.mp hState] using hWater
  unfold acceptGeneration at hGeneration
  split at hGeneration
  · next hN =>
    rw [pure_ok] at hGeneration
    subst hGeneration
    have hS := fun o => or_highWater_eq o hV hWater
    refine .kept hN (hS _) ?_
    rintro next ⟨⟩
    exact ⟨hS _, fun generation hK => retainedGeneration_eq_some hK⟩
  · next cd hs =>
    simp only [run_ok] at hGeneration
    obtain ⟨-, -, -, -, fresh, hF, rfl⟩ := hGeneration
    have hId := newGeneration_materialization hF
    exact .fresh hs rfl rfl hId (by simp [hId]) (by simp [transition, hId])

theorem planSourceInstall_advancesIds {previous : SemanticResourceState}
    (hV : validResourceState previous = true) (h : planSourceInstall previous install = .ok plan) :
    AdvancesIds previous.lastMaterializationId previous.generation plan := by
  simp only [planSourceInstall, planRematerialize, run_ok] at h
  obtain ⟨-, -, -, -, -, -, plan, ⟨-, -, -, -, -, -, revision, -, resolved, -, -, -, -, -, generation, hGeneration, rfl⟩,
    rfl⟩ := h
  unfold rematerializedGeneration at hGeneration
  split at hGeneration
  · next hZ hN =>
    rw [pure_ok] at hGeneration
    subst hGeneration
    refine .kept hN rfl ?_
    intro next hNext
    simp [transition, List.isEmpty_iff.mp hZ] at hNext
  · next hS hN =>
    rw [pure_ok] at hGeneration
    subst hGeneration
    have hs : ∀ o,
        ((retainedGeneration previous.generation o).map (·.materialization.materializationId)).or
          previous.lastMaterializationId = previous.lastMaterializationId := by
      intro o
      have hB := @or_highWater_eq (some previous) previous.lastMaterializationId o
        (by simpa using hV) (by simp)
      simpa using hB
    refine .kept hN (hs _) ?_
    intro next hNext
    simp only [transition, map_eq_some_iff] at hNext
    obtain ⟨p, hP, rfl⟩ := hNext
    split_ifs at hP
    cases hP
    exact ⟨hs _, fun generation hK => retainedGeneration_eq_some hK⟩
  · next cd ho hS =>
    simp only [run_ok] at hGeneration
    obtain ⟨-, -, -, -, fresh, hF, rfl⟩ := hGeneration
    have hId := newGeneration_materialization hF
    have hn : ¬ qualifyOperations (previous.operations.filter fun op =>
        (resolved[op.intentId]?).isNone) install.successor.source = [] := by
      simpa [List.isEmpty_eq_false_iff] using ho
    exact .fresh hS (map_eq_some_iff.mpr ⟨_, if_neg hn, rfl⟩) rfl hId (by simp [hId])
      (by simp [transition, hId])
  · cases hGeneration

namespace SemanticStore

variable [ShardHash]

def SameResources (w w' : SemanticStore) : Prop := w'.resources = w.resources ∧ w'.highWater = w.highWater

variable {w w' : SemanticStore}

omit [ProgramDigest] in
theorem commit_sameResources (h : w.commit = .ok w') : w.SameResources w' := by
  simp only [commit, run_ok] at h
  obtain ⟨st, -, rfl⟩ := h
  exact ⟨rfl, rfl⟩

omit [ProgramDigest] [ShardHash] in
theorem moveLanes_sameResources (h : moveLanes w pl = .ok w') : w.SameResources w' := by
  unfold moveLanes at h
  split at h
  · simp only [run_ok] at h
    obtain ⟨qu, -, rfl⟩ := h
    exact ⟨rfl, rfl⟩
  · rw [pure_ok] at h
    exact h ▸ ⟨rfl, rfl⟩

omit [ShardHash] in
theorem applyPlan_ok (h : applyPlan w co ni pl = .ok (o, w')) :
    (∃ rf, o = .stale ∨ o = .refused rf) ∨
      ∃ is pr, o = planOutcome pl is pr ∧
        (is.isSome ↔ pl.candidate.isSome ∧ (pl.next.bind (·.generation)).isSome) ∧
        (writeResource w (coordinateKeyOf co) pl).SameResources w' := by
  simp only [applyPlan, coordinateKey, run_ok] at h
  obtain ⟨mm, -, key, ⟨-, -, rfl⟩, h⟩ := h
  split at h
  · cases h
  simp only [bind_ok] at h
  obtain ⟨wn, -, h⟩ := h
  split at h
  · cases h
    exact .inl ⟨.invalidCoordinate, .inl rfl⟩
  split at h
  · next rf _ =>
    cases h
    exact .inl ⟨rf, .inr rfl⟩
  simp only [run_ok] at h
  obtain ⟨ev, -, ⟨is, ev'⟩, hInstall, rfl, rfl⟩ := h
  refine .inr ⟨is, _, rfl, ?_, rfl, rfl⟩
  unfold installRow at hInstall
  split at hInstall
  · next hCandidate hGeneration =>
    simp only [run_ok] at hInstall
    obtain ⟨-, -, rfl, -⟩ := hInstall
    simp [hCandidate, hGeneration]
  next hN =>
  obtain ⟨rfl, -⟩ := hInstall
  simp only [isSome_none, false_eq_true, false_iff, not_and, isSome_iff_exists]
  rintro ⟨cd, hCandidate⟩ ⟨gn, hGeneration⟩
  exact hN cd gn hCandidate hGeneration

/-- A transition of one coordinate by a plan that was applied; `installed` is the generation it installed. -/
structure Transitions (w : SemanticStore) (key : CoordinateKey) (installed : Option MaterializationRef)
    (w' : SemanticStore) : Prop where
  intro ::
  exists_plan : ∃ plan, AdvancesIds w.highWater[key]? (w.resources[key]?.bind (·.generation)) plan ∧
    (writeResource w key plan).SameResources w' ∧
    installed = if plan.candidate.isSome then (plan.next.bind (·.generation)).map (·.materialization) else none

section
omit [ProgramDigest] [ShardHash]

theorem SameResources.trans (h : w.SameResources w') (h' : w'.SameResources w'') :
    w.SameResources w'' := ⟨h'.1.trans h.1, h'.2.trans h.2⟩

theorem loadResource_ok
    (h : w.loadResource co = .ok resource) : resource = w.resources[coordinateKeyOf co]? ∧
      ∀ st ∈ resource, validResourceState st = true := by
  simp only [loadResource, coordinateKey, run_ok,
    refuseIf_ok] at h
  obtain ⟨key, ⟨-, -, rfl⟩, -, hV, rfl⟩ := h
  refine ⟨rfl, fun st hState => ?_⟩
  simpa [Option.mem_def.mp hState] using hV

end

end SemanticStore

def SemanticAcceptOutcome.installs : SemanticAcceptOutcome → Option MaterializationRef
  | .accepted _ _ current (some _) _ => current.generation.map (·.materialization)
  | _ => none

def SemanticInstallOutcome.installs : SemanticInstallOutcome → Option MaterializationRef
  | .installed current _ _ => current.generation.map (·.materialization)
  | _ => none

theorem planOutcome_installs
    (hI : installed.isSome ↔ pl.candidate.isSome ∧ (pl.next.bind (·.generation)).isSome)
    (pr : Option StoredEvent) : (planOutcome pl installed pr).installs =
      if pl.candidate.isSome then (pl.next.bind (·.generation)).map (·.materialization) else none := by
  unfold planOutcome
  split
  · next hN => simp [SemanticInstallOutcome.installs, hN]
  · next next r hNext =>
    obtain ⟨hCandidate, -⟩ := hI.mp rfl
    simp [SemanticInstallOutcome.installs, SemanticResourceState.current, hCandidate, hNext]
  next next hNext =>
  have hY : pl.candidate.isSome → pl.next.bind (·.generation) = none := by
    intro hCandidate
    by_contra hS
    have := hI.mpr ⟨hCandidate, isSome_iff_ne_none.mpr hS⟩
    simp at this
  split_ifs with hCandidate
  · simp [SemanticInstallOutcome.installs, hY hCandidate]
  · rfl

theorem planOutcome_applied (pl : SemanticTransitionPlan) (is pr : Option StoredEvent) :
    planOutcome pl is pr ≠ .stale ∧
      ∀ rf, planOutcome pl is pr ≠ .refused rf := by
  unfold planOutcome
  split <;> simp

namespace SemanticStore

variable [ShardHash]

variable {w w' : SemanticStore}

theorem accept_transitions (h : w.accept expectedPubkey signRef acceptedAt accept = .ok (o, w')) :
    (w' = w ∧ o.installs = none) ∨ w.Transitions (coordinateKeyOf accept.coordinate) o.installs w' := by
  unfold SemanticStore.accept at h
  split_ifs at h
  · cases h
    exact .inl ⟨rfl, rfl⟩
  simp only [coordinateKey, run_ok] at h
  obtain ⟨previous, hp, key, ⟨-, -, rfl⟩, ⟨i, qu⟩, -, ⟨rc, qu'⟩, -, h⟩ := h
  obtain ⟨rfl, -⟩ := loadResource_ok hp
  split at h
  · cases h
    exact .inl ⟨rfl, rfl⟩
  next pl hP =>
  simp only [bind_ok] at h
  obtain ⟨⟨vd, ap⟩, hA, moved, hm, h⟩ := h
  have hD := planAccept_advancesIds hP
  rcases applyPlan_ok hA with ⟨rf, rfl | rfl⟩ | ⟨installed, predecessor, hV, hi, hS⟩
  · cases h
    exact .inl ⟨rfl, rfl⟩
  · cases h
    exact .inl ⟨rfl, rfl⟩
  have hI := planOutcome_installs hi predecessor
  rw [← hV] at hI
  have hM := hS.trans (moveLanes_sameResources hm)
  refine .inr ⟨pl, hD, ?_⟩
  cases vd with
  | stale => exact absurd hV.symm (planOutcome_applied _ _ _).1
  | refused rf => exact absurd hV.symm ((planOutcome_applied _ _ _).2 rf)
  | resolved => cases h
  | installed c r rp =>
    simp only [run_ok] at h
    obtain ⟨af, hCommit, rfl, rfl⟩ := h
    exact ⟨hM.trans (commit_sameResources hCommit), hI⟩
  | waiting c =>
    simp only [run_ok] at h
    obtain ⟨af, hCommit, rfl, rfl⟩ := h
    exact ⟨hM.trans (commit_sameResources hCommit), hI⟩

theorem installSource_transitions {o : SemanticInstallOutcome} (h : w.installSource install = .ok (o, w')) :
    (w' = w ∧ o.installs = none) ∨
      w.Transitions (coordinateKeyOf install.successor.coordinate) o.installs w' := by
  simp only [SemanticStore.installSource, bind_ok] at h
  obtain ⟨previous, hp, h⟩ := h
  obtain ⟨hR, hV⟩ := loadResource_ok hp
  split at h
  · cases h
    exact .inl ⟨rfl, rfl⟩
  next previous =>
  simp only [coordinateKey, run_ok] at h
  obtain ⟨key, ⟨-, -, rfl⟩, h⟩ := h
  split_ifs at h with hWater
  split at h
  · cases h
    exact .inl ⟨rfl, rfl⟩
  · cases h
    exact .inl ⟨rfl, rfl⟩
  next pl hP =>
  simp only [bind_ok] at h
  obtain ⟨⟨vd, ap⟩, hA, moved, hm, h⟩ := h
  have hI := planSourceInstall_advancesIds (hV previous rfl) hP
  rw [not_not.mp hWater] at hI
  rcases applyPlan_ok hA with ⟨rf, rfl | rfl⟩ | ⟨installed, predecessor, hv, hN, hS⟩
  · cases h
    exact .inl ⟨rfl, rfl⟩
  · cases h
    exact .inl ⟨rfl, rfl⟩
  have hi := planOutcome_installs hN predecessor
  rw [← hv] at hi
  have hM := hS.trans (moveLanes_sameResources hm)
  refine .inr ⟨pl, by simpa [← hR] using hI, ?_⟩
  cases vd with
  | stale => exact absurd hv.symm (planOutcome_applied _ _ _).1
  | refused rf => exact absurd hv.symm ((planOutcome_applied _ _ _).2 rf)
  | resolved | installed _ _ _ | waiting _ =>
    simp only [run_ok] at h
    obtain ⟨af, hCommit, rfl, rfl⟩ := h
    exact ⟨hM.trans (commit_sameResources hCommit), hi⟩

end SemanticStore

/-- The store with the generations that have been installed, coordinate by coordinate and in order. -/
structure History where
  store : SemanticStore := {}
  log : CoordinateKey → List MaterializationRef := fun _ => []

namespace History

variable [ShardHash]

def record (log : CoordinateKey → List MaterializationRef) (key : CoordinateKey) (installed : Option MaterializationRef) :
    CoordinateKey → List MaterializationRef :=
  update log key (log key ++ installed.toList)

inductive Step : History → History → Prop
  | accept {w w' : SemanticStore} {log : CoordinateKey → List MaterializationRef} {expectedPubkey : PublicKey}
      {signingIdentityRef : String} {acceptedAt : Nat} {accept : SemanticAccept} {outcome : SemanticAcceptOutcome}
      (h : w.accept expectedPubkey signingIdentityRef acceptedAt accept = .ok (outcome, w')) :
      Step ⟨w, log⟩ ⟨w', record log (coordinateKeyOf accept.coordinate) outcome.installs⟩
  | installSource {w w' : SemanticStore} {log : CoordinateKey → List MaterializationRef}
      {install : SemanticSourceInstall} {outcome : SemanticInstallOutcome}
      (h : w.installSource install = .ok (outcome, w')) :
      Step ⟨w, log⟩ ⟨w', record log (coordinateKeyOf install.successor.coordinate) outcome.installs⟩
  | promote {w w' : SemanticStore} {log : CoordinateKey → List MaterializationRef} {coordinate : Coordinate}
      {revision : SourceRevision} {digest : SemanticProgramDigest} {materialization : MaterializationId}
      {eventId : EventId} {verified : VerifiedSignature} {outcome : SemanticPromoteOutcome}
      (h : w.promote coordinate revision digest materialization eventId verified = .ok (outcome, w')) :
      Step ⟨w, log⟩ ⟨w', log⟩
  | closeCohort {w w' : SemanticStore} {log : CoordinateKey → List MaterializationRef} {close : SemanticCohortClose}
      {now : Nat} {outcome : SemanticCohortCloseOutcome} (h : w.closeCohort close now = .ok (outcome, w')) :
      Step ⟨w, log⟩ ⟨w', log⟩
  /-- Every other door of the store leaves the semantic tables alone. -/
  | elsewhere {w w' : SemanticStore} {log : CoordinateKey → List MaterializationRef} (h : w.SameResources w') :
      Step ⟨w, log⟩ ⟨w', log⟩

inductive Reachable : History → Prop
  | start : Reachable {}
  | next {h h' : History} (before : Reachable h) (step : Step h h') : Reachable h'

/-- The mark is the last id, the ids ascend, and a resource stands on the generation installed last. -/
structure Ordered (w : SemanticStore) (log : CoordinateKey → List MaterializationRef) : Prop where
  highWater : ∀ key : CoordinateKey, w.highWater[key]? = (log key).getLast?.map (·.materializationId)
  ascending : ∀ key, (log key).Pairwise (·.materializationId < ·.materializationId)
  last : ∀ (key : CoordinateKey) state, w.resources[key]? = some state →
    ∀ generation ∈ state.generation, (log key).getLast? = some generation.materialization

omit [ProgramDigest] [ShardHash] in
theorem ordered_start : Ordered {} fun _ => [] :=
  ⟨fun key => by simp, fun key => List.Pairwise.nil, fun key st hState => by simp at hState⟩

variable {w w' : SemanticStore} {log : CoordinateKey → List MaterializationRef} {key : CoordinateKey}

section
omit [ProgramDigest] [ShardHash]

theorem Ordered.same (h : Ordered w log) (hS : w.SameResources w') : Ordered w' log := by
  obtain ⟨hR, hWater⟩ := hS
  refine ⟨?_, h.ascending, ?_⟩
  · rw [hWater]
    exact h.highWater
  · rw [hR]
    exact h.last

theorem record_self (is : Option MaterializationRef) :
    record log key is key = log key ++ is.toList := by
  simp [record]

theorem record_of_ne (hK : ot ≠ key) (is : Option MaterializationRef) :
    record log key is ot = log ot := by
  simp [record, hK]

theorem Ordered.lt_next (h : Ordered w log) (hM : earlier ∈ log key) :
    earlier.materializationId < w.highWater[key]?.getD 0 + 1 := by
  have hN : log key ≠ [] := List.ne_nil_of_mem hM
  have hWater := h.highWater key
  rw [show (log key).getLast? = some ((log key).getLast hN) from List.getLast?_eq_some_getLast hN] at hWater
  have hL : earlier.materializationId ≤ ((log key).getLast hN).materializationId := by
    have hS := List.dropLast_append_getLast hN
    have hA := h.ascending key
    rw [← hS] at hM hA
    rcases mem_append.mp hM with hF | hLast
    · exact ((pairwise_append.mp hA).2.2 earlier hF _ (.head _)).le
    · rw [mem_singleton.mp hLast]
  have hG : w.highWater[key]? = some ((log key).getLast hN).materializationId := hWater
  rw [hG]
  exact Nat.lt_succ_of_le hL

theorem Ordered.transitions (h : Ordered w log)
    (hT : w.Transitions key installed w') : Ordered w' (record log key installed) := by
  obtain ⟨pl, hi, ⟨hR, hWater⟩, hI⟩ := hT
  have ho : ∀ ot, ot ≠ key → w'.highWater[ot]? = w.highWater[ot]? := by
    intro ot hX
    rw [hWater, writeResource]
    cases pl.materializationHighWater <;> simp [Ne.symm hX]
  have ht : ∀ ot, ot ≠ key → w'.resources[ot]? = w.resources[ot]? := by
    intro ot hX
    rw [hR, writeResource]
    cases pl.next <;> simp [Ne.symm hX]
  -- away from the coordinate nothing changes, so only its own entries are left
  suffices hK : w'.highWater[key]? = (record log key installed key).getLast?.map (·.materializationId) ∧
      (record log key installed key).Pairwise (·.materializationId < ·.materializationId) ∧
      ∀ st, w'.resources[key]? = some st → ∀ gn ∈ st.generation,
        (record log key installed key).getLast? = some gn.materialization by
    refine ⟨fun ot => ?_, fun ot => ?_, fun ot st hState => ?_⟩
    · by_cases hX : ot = key
      · subst hX
        exact hK.1
      · rw [record_of_ne hX, ho ot hX]
        exact h.highWater ot
    · by_cases hX : ot = key
      · subst hX
        exact hK.2.1
      · rw [record_of_ne hX]
        exact h.ascending ot
    · by_cases hX : ot = key
      · subst hX
        exact hK.2.2 st hState
      · rw [record_of_ne hX]
        exact h.last ot st ((ht ot hX).symm.trans hState)
  rw [record_self]
  cases hi with
  | kept hCandidate hp hNext =>
    obtain rfl : installed = none := by simpa [hCandidate] using hI
    rw [Option.toList_none, append_nil]
    refine ⟨?_, h.ascending key, ?_⟩
    · rw [hWater, writeResource, hp, ← h.highWater key]
      cases hM : w.highWater[key]? <;> simp [hM]
    intro st hState gn hGeneration
    rw [hR, writeResource] at hState
    cases hP : pl.next with
    | none => simp [hP] at hState
    | some next =>
      obtain rfl : next = st := by simpa [hP] using hState
      obtain ⟨bf, hB, hS⟩ := bind_eq_some_iff.mp ((hNext next hP).2 gn hGeneration)
      exact h.last key bf hB gn hS
  | fresh hCandidate hNext hGeneration hId hLast hp =>
    rename_i cd next gn
    obtain rfl : installed = some gn.materialization := by
      simpa [hCandidate, hNext, hGeneration] using hI
    rw [Option.toList_some]
    refine ⟨?_, ?_, ?_⟩
    · rw [hWater, writeResource, hp]
      simp [hId]
    · refine pairwise_append.mpr ⟨h.ascending key, List.pairwise_singleton _ _, ?_⟩
      intro er hE n hN
      rw [mem_singleton.mp hN, hId]
      exact h.lt_next hE
    · intro st hState ot hX
      rw [hR, writeResource, hNext] at hState
      obtain rfl : next = st := by simpa using hState
      obtain rfl : gn = ot := Option.some.inj (hGeneration.symm.trans hX)
      simp

theorem Ordered.close (h : Ordered w log) (key : CoordinateKey) (hWater : w'.highWater = w.highWater)
    (hR : w'.resources = w.resources.erase key) : Ordered w' log := by
  refine ⟨?_, h.ascending, ?_⟩
  · rw [hWater]
    exact h.highWater
  intro o st hState
  rw [hR, get_erase] at hState
  split_ifs at hState
  exact h.last o st hState

end

end History

namespace SemanticStore

variable [ShardHash] {w w' : SemanticStore}

structure Closing (w : SemanticStore) (close : SemanticCohortClose) (now : Nat) (outcome : SemanticCohortCloseOutcome)
    (w' : SemanticStore) where
  state : SemanticResourceState
  generation : SemanticGeneration
  owner : IntentId
  members : List (IntentId × MemberRecord)
  queue : Queue
  hState : w.resources[coordinateKeyOf close.coordinate]? = some state
  hGeneration : state.generation = some generation
  hWhole : generation.members = .ofList (memberIds state.operations)
  hOwner : generation.members.min? = some owner
  hDestinations : destinationsClosed w.store.queue generation owner close.destination = true
  hMembers : closingMembers w.store.queue close.coordinate generation.materialization generation.members.toList =
    .ok (.ok members)
  hQueue : members.foldlM (settleMember close.coordinate generation.materialization now) w.store.queue = .ok queue
  hCommit : commit { w with
    store := { w.store with queue }
    resources := w.resources.erase (coordinateKeyOf close.coordinate) } = .ok w'
  hOutcome : outcome = .closed generation.members.toList

theorem closeCohort_cases
    (h : w.closeCohort close now = .ok (o, w')) : w' = w ∨ Nonempty (w.Closing close now o w') := by
  simp only [SemanticStore.closeCohort, bind_ok] at h
  obtain ⟨rs, hR, h⟩ := h
  obtain ⟨hState, -⟩ := loadResource_ok hR
  split at h
  · cases h
    exact .inl rfl
  split_ifs at h
  · cases h
    exact .inl rfl
  split at h
  · cases h
    exact .inl rfl
  next generation hGeneration =>
  split_ifs at h with hE
  · cases h
    exact .inl rfl
  simp only [not_or, not_not] at hE
  split at h
  · cases h
  next owner hO =>
  split_ifs at h with hDestinations
  · cases h
    exact .inl rfl
  simp only [bind_ok] at h
  obtain ⟨vd, hMembers, h⟩ := h
  split at h
  · cases h
    exact .inl rfl
  next members =>
  simp only [run_ok] at h
  obtain ⟨queue, hQueue, after, hCommit, hOutcome, rfl⟩ := h
  exact .inr ⟨_, generation, owner, members, queue, hState.symm, hGeneration, hE.2.2.2, hO,
    by simpa using hDestinations, hMembers, hQueue, hCommit, hOutcome.symm⟩

structure Promotion (w : SemanticStore) (coordinate : Coordinate) (materialization : MaterializationRef)
    (verified : VerifiedSignature) (outcome : SemanticPromoteOutcome) (w' : SemanticStore) where
  state : SemanticResourceState
  generation : SemanticGeneration
  address : RedbKey
  key : EventKey
  row : StoredEvent
  origin : LocalOrigin
  members : List (IntentId × MemberRecord)
  hState : w.resources[coordinateKeyOf coordinate]? = some state
  hGeneration : state.generation = some generation
  hMaterialization : generation.materialization = materialization
  hAddress : addressOfCoordinate coordinate = some address
  hRow : w.store.events.loadAt address = .ok (some (key, row))
  hId : row.event.id = materialization.eventId
  hVerified : verified.eventId = materialization.eventId
  hOrigin : row.provenance.localOrigin = some origin
  hOwners : origin.owners = generation.members
  hPending : origin.sigState = .pending
  hMembers : waitingMembers w.store.queue coordinate materialization generation.members.toList = .ok (some members)
  hCommit : commit { w with store := { w.store with
    events := (w.store.events.replaceEvent key { row.event with sig := verified.signature }).replaceLocal key
      (some ⟨origin.owners, .signed⟩)
    queue := members.foldl (signMember coordinate) w.store.queue } } = .ok w'
  hOutcome : outcome = .promoted ⟨{ row.event with sig := verified.signature },
    ⟨row.provenance.seen, some ⟨origin.owners, .signed⟩⟩⟩ generation.members.toList

theorem promote_cases (h : w.promote co r digest mat eid ver = .ok (o, w')) :
    (o = .stale ∧ w' = w) ∨ Nonempty (w.Promotion co ⟨mat, eid⟩ ver o w') := by
  simp only [SemanticStore.promote, bind_ok, refuseIf_ok, not_not] at h
  obtain ⟨-, hVerified, resource, hR, h⟩ := h
  obtain ⟨rfl, -⟩ := loadResource_ok hR
  split at h
  · cases h
    exact .inl ⟨rfl, rfl⟩
  next st generation hF =>
  obtain ⟨st, hState, hM⟩ := bind_eq_some_iff.mp hF
  obtain ⟨generation, hGeneration, hP⟩ := map_eq_some_iff.mp hM
  cases hP
  split_ifs at h with hE
  · cases h
    exact .inl ⟨rfl, rfl⟩
  simp only [not_or, not_not] at hE
  split at h
  · cases h
  next address hAddress =>
  simp only [bind_ok] at h
  obtain ⟨fd, hRow, h⟩ := h
  split at h
  · cases h
    exact .inl ⟨rfl, rfl⟩
  next key row =>
  split at h
  · cases h
    exact .inl ⟨rfl, rfl⟩
  next hId =>
  split at h
  · cases h
  next origin hO =>
  split at h
  · cases h
    exact .inl ⟨rfl, rfl⟩
  next hC =>
  simp only [not_or, not_not] at hC
  split at h
  · cases h
  simp only [bind_ok] at h
  obtain ⟨wt, hW, h⟩ := h
  split at h
  · cases h
    exact .inl ⟨rfl, rfl⟩
  next members =>
  simp only [run_ok] at h
  obtain ⟨af, hCommit, rfl, rfl⟩ := h
  have hPending : origin.sigState = .pending := by
    cases hS : origin.sigState with
    | pending => rfl
    | signed => exact absurd hS hC.2
  exact .inr ⟨st, generation, address, key, row, origin, members, hState, hGeneration, hE.2.2.1, hAddress,
    hRow, not_not.mp hId, hVerified, hO, hC.1, hPending, hE.2.2.1 ▸ hW, hCommit, rfl⟩

end SemanticStore

namespace History

variable [ShardHash]

variable {h : History}

theorem Step.ordered (st : Step h h') (ho : Ordered h.store h.log) : Ordered h'.store h'.log := by
  cases st with
  | accept hk =>
    rcases SemanticStore.accept_transitions hk with ⟨rfl, hN⟩ | hT
    · rw [hN]
      simpa [record] using ho
    · exact ho.transitions hT
  | installSource hk =>
    rcases SemanticStore.installSource_transitions hk with ⟨rfl, hN⟩ | hT
    · rw [hN]
      simpa [record] using ho
    · exact ho.transitions hT
  | promote hk =>
    rcases SemanticStore.promote_cases hk with ⟨-, rfl⟩ | ⟨⟨pr⟩⟩
    · exact ho
    · have hS := SemanticStore.commit_sameResources pr.hCommit
      exact ho.same ⟨hS.1, hS.2⟩
  | closeCohort hk =>
    rcases SemanticStore.closeCohort_cases hk with rfl | ⟨⟨sh⟩⟩
    · exact ho
    · obtain ⟨hR, hWater⟩ := SemanticStore.commit_sameResources sh.hCommit
      exact ho.close _ hWater hR
  | elsewhere hS => exact ho.same hS

theorem Reachable.ordered (hR : Reachable h) : Ordered h.store h.log := by
  induction hR with
  | start => exact ordered_start
  | next _ st ih => exact st.ordered ih

/-- The ids of the generations of a coordinate ascend, also across closing and re-creating its resource,
the mark is the last of them, and a promotion signs the body of the generation installed last or nothing. -/
theorem materializationIds_never_reused {h : History} (hReach : Reachable h) (coordinate : Coordinate) :
    (h.log (coordinateKeyOf coordinate)).Pairwise (·.materializationId < ·.materializationId) ∧
      h.store.highWater[coordinateKeyOf coordinate]? =
        (h.log (coordinateKeyOf coordinate)).getLast?.map (·.materializationId) ∧
      ∀ (revision : SourceRevision) (digest : SemanticProgramDigest) (materialization : MaterializationId)
        (eventId : EventId) (verified : VerifiedSignature) (outcome : SemanticPromoteOutcome) (w' : SemanticStore),
        h.store.promote coordinate revision digest materialization eventId verified = .ok (outcome, w') →
        (outcome = .stale ∧ w' = h.store) ∨
          ((h.log (coordinateKeyOf coordinate)).getLast? = some ⟨materialization, eventId⟩ ∧ verified.eventId = eventId ∧
            ∃ row members, outcome = .promoted row members ∧ row.event.id = eventId) := by
  have ho := hReach.ordered
  refine ⟨ho.ascending _, ho.highWater _, ?_⟩
  intro revision digest materialization eventId verified outcome w' hP
  rcases SemanticStore.promote_cases hP with hS | ⟨⟨prm⟩⟩
  · exact .inl hS
  have hLast := ho.last _ prm.state prm.hState _ prm.hGeneration
  rw [prm.hMaterialization] at hLast
  exact .inr ⟨hLast, prm.hVerified, _, _, prm.hOutcome, prm.hId⟩

end History

def relayList : Coordinate := ⟨10002, 2, ""⟩

def listEvent (id createdAt : Nat) : Event := .bare id 2 createdAt 10002

def listBodies (id : EventId) : Event :=
  if id = 9 then listEvent 9 100 else if id = 10 then listEvent 10 200 else listEvent 11 300

def defaultEdit (event : Event) : SemanticAccept where
  coordinate := relayList
  program := 1
  format := 1
  expectedSourceRevision := none
  expectedProgramDigest := none
  expectedCurrentMaterialization := none
  startingSource := ⟨1, 1, .capabilityDefault⟩
  source := ⟨1, 1, .unresolved⟩
  sourceEvent := none
  plan := ⟨1, [], by decide, by decide⟩
  materialized := some ⟨event, true, "", .pending⟩
  contributingOperations := []
  resolvedOperations := []

def secondEdit (event : Event) : SemanticAccept :=
  { defaultEdit event with
    expectedSourceRevision := some (.initial ⟨1, 1, .unresolved⟩)
    expectedProgramDigest := some 1
    expectedCurrentMaterialization := some 1
    contributingOperations := [1] }

/-- A digest that tells programs apart by their length. -/
@[reducible] def lengthDigest : ProgramDigest := ⟨List.length⟩

section
omit [ProgramDigest]

theorem two_edits_accepted : ∃ first second,
    @SemanticStore.accept lengthDigest oneShard {} 2 "" 100 (defaultEdit (listEvent 9 100)) = .ok first ∧
      @SemanticStore.accept lengthDigest oneShard first.2 2 "" 300 (secondEdit (listEvent 11 300)) = .ok second ∧
      (first.1.installs = some ⟨1, 9⟩ ∧ second.1.installs = some ⟨2, 11⟩) ∧ second.2.store.events.rows.size = 1 ∧
      (second.2.resources[coordinateKeyOf relayList]?).map (fun state => memberIds state.operations) = some [1, 2] := by
  let _ := lengthDigest
  let _ := oneShard
  have hR : ((SemanticStore.accept {} 2 "" 100 (defaultEdit (listEvent 9 100))).toOption.any fun first =>
      (first.2.accept 2 "" 300 (secondEdit (listEvent 11 300))).toOption.any fun second =>
        (first.1.installs = some ⟨1, 9⟩ ∧ second.1.installs = some ⟨2, 11⟩) ∧ second.2.store.events.rows.size = 1 ∧
          (second.2.resources[coordinateKeyOf relayList]?).map (fun state => memberIds state.operations) = some [1, 2]) = true := by
    -- the least member of a set does not evaluate, the head of its list does
    simp only [SemanticStore.accept, moveLanes, installSuccessorDeliveryLanes, Std.ExtTreeSet.min?_eq_head?_toList]
    decide +kernel
  simp only [any_eq_true, toOption_some, decide_eq_true_eq] at hR
  obtain ⟨first, hFirst, second, hSecond, hR⟩ := hR
  exact ⟨first, second, hFirst, hSecond, hR⟩

theorem materializationIds_never_reused_two_edits : ∃ first second,
    @SemanticStore.accept lengthDigest oneShard {} 2 "" 100 (defaultEdit (listEvent 9 100)) = .ok first ∧
      @SemanticStore.accept lengthDigest oneShard first.2 2 "" 300 (secondEdit (listEvent 11 300)) = .ok second ∧
      (first.1.installs = some ⟨1, 9⟩ ∧ second.1.installs = some ⟨2, 11⟩) ∧
      second.2.highWater[coordinateKeyOf relayList]? = some 2 := by
  let _ := lengthDigest
  let _ := oneShard
  obtain ⟨⟨outcome, w⟩, ⟨next, later⟩, hF, hS, hI, -⟩ := two_edits_accepted
  have hWater := (History.materializationIds_never_reused (.next (.next .start (.accept hF)) (.accept hS)) relayList).2.1
  refine ⟨_, _, hF, hS, hI, ?_⟩
  simpa [History.record, hI, secondEdit, defaultEdit] using hWater

end

end NmpStore.Semantic
