import NmpStore.Semantic.Planned
import NmpStore.Store.Run

/-! # What the semantic doors do to the store

An applied plan empties the address of its coordinate or puts its own generation there, rewrites the journal of the
members and moves lanes.
-/

namespace NmpStore.Semantic

variable {candidate : MaterializationCandidate} {q q' q'' : Queue} {α : Type} {id : IntentId}

theorem Planned.removed_of_candidate
    (h : Planned co pv ni pl) (hCandidate : pl.candidate = some candidate) :
    pl.removedGeneration = pv.bind (·.generation) := by
  obtain ⟨next, generation, hN, hGeneration, hM⟩ := h.candidate candidate hCandidate
  rw [h.removed]
  cases hO : pv.bind (·.generation) with
  | none => rfl
  | some o =>
    -- a new generation is later than the one it replaces
    have hL := hM.after_previous o hO
    have hX : generation ≠ o := by
      rintro rfl
      exact absurd hM.createdAt (ne_of_lt hL)
    simp [hN, hGeneration, hX]

theorem predecessorOf_candidate (h : Planned co pv ni pl)
    (hCandidate : pl.candidate = some candidate) (hPredecessor : predecessorOf pl winner = some pred) :
    pred = winner := by
  have hRemoved := h.removed_of_candidate hCandidate
  obtain ⟨next, generation, hN, -, -⟩ := h.candidate candidate hCandidate
  unfold predecessorOf at hPredecessor
  cases hO : pv.bind (·.generation) with
  | some o =>
    rw [hRemoved, hO] at hPredecessor
    cases winner with
    | none => cases hPredecessor
    | some r =>
      dsimp only at hPredecessor
      split_ifs at hPredecessor
      exact (Option.some.inj hPredecessor).symm
  | none =>
    rw [hRemoved, hO, hCandidate, h.starts, hO, hN] at hPredecessor
    dsimp only at hPredecessor
    split at hPredecessor
    · split_ifs at hPredecessor
      exact (Option.some.inj hPredecessor).symm
    · split_ifs at hPredecessor
      exact (Option.some.inj hPredecessor).symm
    · cases hPredecessor

/-- The rows after a plan: untouched, without the row of the address, or with the generation there. -/
inductive Materializes (t : EventTables) (address : RedbKey) (plan : SemanticTransitionPlan) [ShardHash] :
    EventTables → Prop
  | untouched (hCandidate : plan.candidate = none) (hRemoved : plan.removedGeneration = none) :
      Materializes t address plan t
  | dropped {t' : EventTables} {old : SemanticGeneration} {row : StoredEvent} (hCandidate : plan.candidate = none)
      (hRemoved : plan.removedGeneration = some old) (hAt : t.rowAt address = some row) (hOk : t'.Ok)
      (hRows : t'.rowOf = update t.rowOf row.event.id none) : Materializes t address plan t'
  | installed {t' : EventTables} {candidate : MaterializationCandidate} {generation : SemanticGeneration}
      (hCandidate : plan.candidate = some candidate) (hGeneration : plan.next.bind (·.generation) = some generation)
      (hAddress : addressOf candidate.event = some address) (hAt : t.rowAt address = none) (hOk : t'.Ok)
      (hRows : t'.rowOf = update t.rowOf candidate.event.id
        (some ⟨candidateEvent candidate, generationProvenance generation⟩)) : Materializes t address plan t'
  | replaced {t' : EventTables} {candidate : MaterializationCandidate} {generation : SemanticGeneration}
      {row : StoredEvent} (hCandidate : plan.candidate = some candidate)
      (hGeneration : plan.next.bind (·.generation) = some generation) (hAddress : addressOf candidate.event = some address)
      (hAt : t.rowAt address = some row) (hOk : t'.Ok)
      (hRows : t'.rowOf = update (update t.rowOf row.event.id none) candidate.event.id
        (some ⟨candidateEvent candidate, generationProvenance generation⟩)) : Materializes t address plan t'

section

variable [ShardHash] {t t' : EventTables}

theorem removeRow_frees (h : t.Ok) (hAt : t.rowAt addr = some r)
    (hR : t.removeRow r.event.id (fun _ => true) = .ok (gone, t')) :
    t'.Ok ∧ t'.rowOf = update t.rowOf r.event.id none ∧ t'.rowAt addr = none := by
  obtain ⟨hW, -⟩ := h.rowAt_some.mp hAt
  obtain ⟨hOk, hG, hRows⟩ := EventTables.removeRow_ok h hR
  have hG : gone = some r := by simpa [hW, Option.filter] using hG
  rw [hG, isSome_some, if_pos rfl] at hRows
  refine ⟨hOk, hRows, ?_⟩
  rw [eq_none_iff_forall_ne_some]
  intro o hX
  obtain ⟨ho, hAddress⟩ := hOk.rowAt_some.mp hX
  rw [hRows, update_apply] at ho
  split_ifs at ho with hI
  have hS := h.rowAt_some.mpr ⟨ho, hAddress⟩
  rw [hAt] at hS
  exact hI (by rw [Option.some.inj hS])

theorem rowOf_candidate {s : Store} (h : s.Sound bs)
    (hE : Authentic bs ev) (hAddress : addressOf ev = some addr)
    (hAt : s.events.rowOf ev.id = some st) : s.events.rowAt addr = some st := by
  have hS := h.sameBody hE st hAt
  rw [h.events.rowAt_some, ← hS.addressOf_eq, ← hS.fields.1]
  exact ⟨hAt, hAddress⟩

end

def MaterializationCandidate.Authentic (bodies : Bodies) (candidate : MaterializationCandidate) : Prop :=
  candidate.verifiesId = true → NmpStore.Authentic bodies candidate.event

theorem candidateEvent_sameBody (candidate : MaterializationCandidate) :
    (candidateEvent candidate).SameBody candidate.event := rfl

section

variable [ShardHash] {s : Store}

variable {t' : EventTables}

theorem materializes (h : s.Sound bs)
    (hPlan : Planned co pv ni pl) (hAddress : addressOfCoordinate co = some addr)
    (hA : ∀ candidate, pl.candidate = some candidate → candidate.Authentic bs)
    (hPredecessor : predecessorOf pl (s.events.rowAt addr) = some pred)
    (hDrop : dropPredecessor s.events pl pred = .ok m) (hInstall : installRow m pl = .ok (installed, t')) :
    Materializes s.events addr pl t' := by
  cases hCandidate : pl.candidate with
  | none =>
    obtain ⟨-, rfl⟩ : none = installed ∧ m = t' := by
      simpa [installRow, hCandidate] using hInstall
    cases hRemoved : pl.removedGeneration with
    | none =>
      obtain rfl : pred = none := by simpa [predecessorOf, hRemoved, hCandidate, eq_comm] using hPredecessor
      obtain rfl : s.events = m := by simpa [dropPredecessor] using hDrop
      exact .untouched hCandidate hRemoved
    | some ol =>
      cases hAt : s.events.rowAt addr with
      | none => simp [predecessorOf, hRemoved, hAt] at hPredecessor
      | some r =>
        obtain rfl : pred = some r := by
          simp only [predecessorOf, hRemoved, hAt] at hPredecessor
          split_ifs at hPredecessor
          exact (Option.some.inj hPredecessor).symm
        simp only [dropPredecessor, hRemoved, isSome_some, Bool.true_or, if_true, bind_ok,
          pure_ok] at hDrop
        obtain ⟨⟨gn, _⟩, hR, rfl⟩ := hDrop
        obtain ⟨hOk, hRows, -⟩ := removeRow_frees h.events hAt hR
        exact .dropped hCandidate hRemoved hAt hOk hRows
  | some candidate =>
    obtain ⟨next, generation, hn, hGeneration, hM⟩ := hPlan.candidate candidate hCandidate
    have hb : pl.next.bind (·.generation) = some generation := by rw [hn, bind_some, hGeneration]
    have hAt : addressOf candidate.event = some addr := (addressOf_of_matches hM.fits).trans hAddress
    have hB := hA candidate hCandidate hM.verified
    obtain rfl := predecessorOf_candidate hPlan hCandidate hPredecessor
    simp only [installRow, hCandidate, hb, run_ok] at hInstall
    obtain ⟨_, hi, -, rfl⟩ := hInstall
    have hS : addressOf (candidateEvent candidate) = some addr := hAt
    cases hW : s.events.rowAt addr with
    | none =>
      obtain rfl : s.events = m := by simpa [dropPredecessor, hW] using hDrop
      have hN : s.events.rowOf (candidateEvent candidate).id = none := by
        show s.events.rowOf candidate.event.id = none
        cases hO : s.events.rowOf candidate.event.id with
        | none => rfl
        | some st => cases hW.symm.trans (rowOf_candidate h hB hAt hO)
      obtain ⟨hOk, hRows⟩ := EventTables.insertRow_ok h.events hN (fun o hX => by
        cases hS.symm.trans hX
        exact hW) hi
      exact .installed hCandidate hb hAt hW hOk hRows
    | some r =>
      simp only [dropPredecessor, hW, hCandidate, isSome_some, Bool.or_true, if_true, bind_ok,
        pure_ok] at hDrop
      obtain ⟨⟨gn, fr⟩, hR, rfl⟩ := hDrop
      obtain ⟨hD, hRows, hF⟩ := removeRow_frees h.events hW hR
      have hN : fr.rowOf (candidateEvent candidate).id = none := by
        show fr.rowOf candidate.event.id = none
        rw [hRows, update_apply]
        split_ifs with hI
        · rfl
        cases hO : s.events.rowOf candidate.event.id with
        | none => rfl
        | some st =>
          have hH := rowOf_candidate h hB hAt hO
          rw [hW] at hH
          cases hH
          exact absurd (h.events.rowOf_id hO).symm hI
      obtain ⟨hOk, hRows'⟩ := EventTables.insertRow_ok hD hN (fun o hX => by
        cases hS.symm.trans hX
        exact hF) hi
      exact .replaced hCandidate hb hAt hW hOk (hRows ▸ hRows')

theorem Materializes.ok (h : s.events.Ok) (hRows : Materializes s.events addr pl t') : t'.Ok := by
  cases hRows <;> assumption

theorem Materializes.row_cases (hRows : Materializes t addr pl t')
    (hAt : t'.rowOf id = some st) : t.rowOf id = some st ∨
      ∃ candidate gn, pl.candidate = some candidate ∧ id = candidate.event.id ∧
        pl.next.bind (·.generation) = some gn ∧
        st = ⟨candidateEvent candidate, generationProvenance gn⟩ := by
  cases hRows with
  | untouched => exact .inl hAt
  | dropped _ _ _ _ hE =>
    rw [hE, update_apply] at hAt
    split_ifs at hAt
    exact .inl hAt
  | installed hCandidate hGeneration _ _ _ hE =>
    rw [hE, update_apply] at hAt
    split_ifs at hAt with hId
    · exact .inr ⟨_, _, hCandidate, hId, hGeneration, (Option.some.inj hAt).symm⟩
    · exact .inl hAt
  | replaced hCandidate hGeneration _ _ _ hE =>
    rw [hE, update_apply, update_apply] at hAt
    split_ifs at hAt with hId
    · exact .inr ⟨_, _, hCandidate, hId, hGeneration, (Option.some.inj hAt).symm⟩
    · exact .inl hAt

end

structure JournalsOperations (q q' : Queue) : Prop where
  displaced : q'.displaced = q.displaced
  intents : ∀ (id : IntentId) record, q'.intents[id]? = some record →
    q.intents[id]? = some record ∨ record.event = none

theorem JournalsOperations.refl (q : Queue) : JournalsOperations q q := ⟨rfl, fun _ _ hAt => .inl hAt⟩

theorem JournalsOperations.trans (h : JournalsOperations q q') (h' : JournalsOperations q' q'') :
    JournalsOperations q q'' :=
  ⟨h'.displaced.trans h.displaced, fun id r hAt => (h'.intents id r hAt).elim (h.intents id r) .inr⟩

theorem journalsOperations_foldl {f : Queue → α → Queue} (hS : ∀ q a, JournalsOperations q (f q a))
    (en : List α) (q : Queue) : JournalsOperations q (en.foldl f q) := by
  induction en generalizing q with
  | nil => exact .refl q
  | cons e rs ih => exact (hS q e).trans (ih (f q e))

theorem journalsOperations_insert (hR : r.event = none) : JournalsOperations q { q with
      receipts, intents := q.intents.insert id r } := by
  refine ⟨rfl, fun o fd hAt => ?_⟩
  rcases insert_some.mp hAt with ⟨-, rfl⟩ | ⟨-, hI⟩
  · exact .inr (hR)
  · exact .inl hI

theorem journalsOperations_erase : JournalsOperations q { q with
      receipts, intents := q.intents.erase id } := by
  refine ⟨rfl, fun o fd hAt => ?_⟩
  exact .inl (of_erase hAt)

theorem updateMember_journals (co : Coordinate) (r : Option MaterializationRecord) (q : Queue)
    (e : SemanticReceiptUpdate × MemberRecord) : JournalsOperations q (updateMember co r q e) := by
  unfold updateMember
  dsimp only
  split_ifs
  · exact journalsOperations_insert rfl
  · exact journalsOperations_erase

theorem writeQueue_journals (co : Coordinate) (pl : SemanticTransitionPlan) (ni : Option NewIntent)
    (q : Queue) (mm : List (SemanticReceiptUpdate × MemberRecord)) :
    JournalsOperations q (writeQueue co pl ni q mm) := by
  have hMembers := journalsOperations_foldl (updateMember_journals co (materializationRecord pl)) mm q
  cases ni with
  | none => exact hMembers
  | some n =>
    refine hMembers.trans ?_
    show JournalsOperations _ (journalOperation co _ pl.receiptUpdates _ n)
    unfold journalOperation
    split
    · exact .refl _
    · exact journalsOperations_insert rfl

def MovesLanes (q q' : Queue) : Prop := ∃ lanes routeRevisions deadlines, q' = { q with lanes, routeRevisions, deadlines }

theorem MovesLanes.refl (q : Queue) : MovesLanes q q := ⟨_, _, _, rfl⟩

theorem MovesLanes.trans (h : MovesLanes q q') (h' : MovesLanes q' q'') : MovesLanes q q'' := by
  obtain ⟨_, _, _, rfl⟩ := h
  obtain ⟨_, _, _, rfl⟩ := h'
  exact ⟨_, _, _, rfl⟩

theorem movesLanes_foldlM {f : Queue → α → Result Queue} (hS : ∀ q a q', f q a = .ok q' → MovesLanes q q')
    {en : List α} (h : en.foldlM f q = .ok q') : MovesLanes q q' :=
  foldlM_induction (fun _ m => MovesLanes q m) (.refl q)
    (fun _ a m next _ hD hN => hD.trans (hS m a next hN)) h

theorem installSuccessorDeliveryLanes_moves {pv next : SemanticGeneration}
    (h : installSuccessorDeliveryLanes q pv next = .ok q') : MovesLanes q q' := by
  unfold installSuccessorDeliveryLanes at h
  split at h
  · cases h
  simp only [bind_ok] at h
  obtain ⟨dr, hD, h⟩ := h
  have hDrop : MovesLanes q dr := by
    refine movesLanes_foldlM (fun m mb af hA => ?_) hD
    simp only [dropMemberLanes, run_ok] at hA
    obtain ⟨-, -, rfl⟩ := hA
    exact ⟨_, _, _, rfl⟩
  refine hDrop.trans ?_
  split_ifs at h
  · rw [pure_ok] at h
    exact h ▸ .refl _
  simp only [bind_ok] at h
  obtain ⟨-, -, h⟩ := h
  refine MovesLanes.trans ⟨_, _, _, rfl⟩ (movesLanes_foldlM (fun m r af hA => ?_) h)
  simp only [openLane, run_ok] at hA
  obtain ⟨-, -, rfl⟩ := hA
  exact ⟨_, _, _, rfl⟩

def SucceedsLanes (plan : SemanticTransitionPlan) (q q' : Queue) : Prop :=
  match plan.removedGeneration, plan.next.bind (·.generation) with
  | some previous, some next => installSuccessorDeliveryLanes q previous next = .ok q'
  | _, _ => q' = q

theorem moveLanes_moves (h : moveLanes w pl = .ok w') :
    ∃ queue, w' = { w with store := { w.store with queue } } ∧ MovesLanes w.store.queue queue ∧
      SucceedsLanes pl w.store.queue queue := by
  unfold moveLanes at h
  split at h
  · next pv next hPrevious hN =>
    simp only [run_ok] at h
    obtain ⟨queue, hQ, rfl⟩ := h
    exact ⟨queue, rfl, installSuccessorDeliveryLanes_moves hQ, by simpa only [SucceedsLanes, hPrevious, hN] using hQ⟩
  next hn =>
  rw [pure_ok] at h
  refine ⟨w.store.queue, h.symm, .refl _, ?_⟩
  unfold SucceedsLanes
  split
  · next hPrevious hN => exact (hn _ _ hPrevious hN).elim
  · rfl

theorem queueAuthentic_of_journals (h : q.Authentic bs)
    (hJ : JournalsOperations q q') : q'.Authentic bs := by
  refine ⟨?_, fun k r ev sg hAt hE => ?_⟩
  · rw [hJ.displaced]
    exact h.displaced
  rcases hJ.intents k r hAt with hO | hN
  · exact h.frozen k r ev sg hO hE
  · cases hN.symm.trans hE

theorem MovesLanes.journals (h : MovesLanes q q') : JournalsOperations q q' := by
  obtain ⟨_, _, _, rfl⟩ := h
  exact ⟨rfl, fun _ _ hAt => .inl hAt⟩

section

variable [ProgramDigest] [ShardHash]

/-- The store `base`, which holds the ids of a new intent if there is one, after a plan that was applied. -/
structure Applies (base : SemanticStore) (coordinate : Coordinate) (newIntent : Option NewIntent)
    (plan : SemanticTransitionPlan) (w' : SemanticStore) where
  address : RedbKey
  members : List (SemanticReceiptUpdate × MemberRecord)
  predecessor : Option StoredEvent
  mid : EventTables
  events : EventTables
  installed : Option StoredEvent
  queue : Queue
  hAddress : addressOfCoordinate coordinate = some address
  hMembers : loadMemberRecords base.store.queue plan.receiptUpdates (newIntent.map (·.intentId)) coordinate = .ok members
  hPredecessor : predecessorOf plan (base.store.events.rowAt address) = some predecessor
  hRefusal : candidateRefusal base.store plan = none
  hDrop : dropPredecessor base.store.events plan predecessor = .ok mid
  hInstall : installRow mid plan = .ok (installed, events)
  hLanes : MovesLanes (writeQueue coordinate plan newIntent base.store.queue members) queue
  hSucceeds : SucceedsLanes plan (writeQueue coordinate plan newIntent base.store.queue members) queue
  hCommit : Store.commit { base.store with events, queue } = .ok w'.store
  hResources : (writeResource base (coordinateKeyOf coordinate) plan).SameResources w'

variable {w w' : SemanticStore}

theorem applyPlan_applies
    (hOk : base.store.events.Ok) (hA : applyPlan base co ni pl = .ok (o, applied))
    (hM : moveLanes applied pl = .ok moved) (hCommit : moved.commit = .ok w') :
    (∃ rf, o = .stale ∨ o = .refused rf) ∨ Nonempty (Applies base co ni pl w') := by
  have hS := SemanticStore.commit_sameResources hCommit
  have hm := SemanticStore.moveLanes_sameResources hM
  simp only [applyPlan, coordinateKey, run_ok] at hA
  obtain ⟨members, hMembers, key, ⟨-, -, rfl⟩, hA⟩ := hA
  split at hA
  · cases hA
  next ad hAddress =>
  simp only [bind_ok] at hA
  obtain ⟨wn, hw, hA⟩ := hA
  have hW := EventTables.loadAt_cases hOk hw
  split at hA
  · cases hA
    exact .inl ⟨.invalidCoordinate, .inl rfl⟩
  next predecessor hPredecessor =>
  split at hA
  · next rf _ =>
    cases hA
    exact .inl ⟨rf, .inr rfl⟩
  next hRefusal =>
  simp only [run_ok] at hA
  obtain ⟨mid, hDrop, ⟨installed, events⟩, hInstall, -, rfl⟩ := hA
  obtain ⟨queue, rfl, hLanes, hSucceeds⟩ := moveLanes_moves hM
  simp only [SemanticStore.commit, run_ok] at hCommit
  obtain ⟨st, hs, rfl⟩ := hCommit
  exact .inr ⟨ad, members, predecessor, mid, events, installed, queue, hAddress, hMembers, hW ▸ hPredecessor,
    hRefusal, hDrop, hInstall, hLanes, hSucceeds, hs, hm.trans hS⟩

namespace SemanticStore

def allocated (w : SemanticStore) : SemanticStore :=
  { w with store := { w.store with queue := w.store.queue.allocated } }

structure Accepting (w : SemanticStore) (expectedPubkey : PublicKey) (signingIdentityRef : String) (acceptedAt : Nat)
    (accept : SemanticAccept) (w' : SemanticStore) where
  plan : SemanticTransitionPlan
  hPlan : planAccept w.resources[coordinateKeyOf accept.coordinate]? w.highWater[coordinateKeyOf accept.coordinate]?
    w.store.queue.nextIntentId acceptedAt accept = .ok plan
  applies : Applies w.allocated accept.coordinate (some ⟨w.store.queue.nextIntentId, w.store.queue.nextReceiptId,
    expectedPubkey, signingIdentityRef, acceptedAt⟩) plan w'

variable {w w' : SemanticStore} {accept : SemanticAccept}

theorem accept_cases (hOk : w.store.events.Ok)
    (h : w.accept expectedPubkey signRef acceptedAt accept = .ok (o, w')) :
    w' = w ∨ Nonempty (w.Accepting expectedPubkey signRef acceptedAt accept w') := by
  unfold SemanticStore.accept at h
  split_ifs at h
  · cases h
    exact .inl rfl
  simp only [coordinateKey, run_ok] at h
  obtain ⟨pv, hPrevious, key, ⟨-, -, rfl⟩, ⟨i, qu⟩, hI, ⟨rc, qu'⟩, hR, h⟩ := h
  obtain ⟨rfl, -⟩ := loadResource_ok hPrevious
  obtain ⟨rfl, rfl, rfl⟩ := Queue.alloc_cases hI hR
  split at h
  · cases h
    exact .inl rfl
  next pl hPlan =>
  simp only [bind_ok] at h
  obtain ⟨⟨vd, app⟩, ha, moved, hM, h⟩ := h
  have hA : ∀ af, moved.commit = .ok af → (∃ rf, vd = .stale ∨ vd = .refused rf) ∨
      Nonempty (w.Accepting expectedPubkey signRef acceptedAt accept af) := fun af hCommit =>
    (applyPlan_applies (show w.allocated.store.events.Ok from hOk) ha hM hCommit).imp id fun ⟨ap⟩ => ⟨pl, hPlan, ap⟩
  cases vd with
  | stale =>
    cases h
    exact .inl rfl
  | refused rf =>
    cases h
    exact .inl rfl
  | resolved => cases h
  | installed c r rp =>
    simp only [run_ok] at h
    obtain ⟨af, hCommit, -, rfl⟩ := h
    exact .inr ((hA _ hCommit).resolve_left (by simp))
  | waiting c =>
    simp only [run_ok] at h
    obtain ⟨af, hCommit, -, rfl⟩ := h
    exact .inr ((hA _ hCommit).resolve_left (by simp))

structure Installing (w : SemanticStore) (install : SemanticSourceInstall) (w' : SemanticStore) where
  previous : SemanticResourceState
  plan : SemanticTransitionPlan
  hPrevious : w.resources[coordinateKeyOf install.successor.coordinate]? = some previous
  hPlan : planSourceInstall previous install = .ok plan
  applies : Applies w install.successor.coordinate none plan w'

theorem installSource_cases (hOk : w.store.events.Ok) (h : w.installSource install = .ok (o, w')) :
    w' = w ∨ Nonempty (w.Installing install w') := by
  simp only [SemanticStore.installSource, bind_ok] at h
  obtain ⟨pv, hPrevious, h⟩ := h
  obtain ⟨hR, -⟩ := loadResource_ok hPrevious
  split at h
  · cases h
    exact .inl rfl
  next pv =>
  simp only [bind_ok] at h
  obtain ⟨k, -, h⟩ := h
  split_ifs at h
  split at h
  · cases h
    exact .inl rfl
  · cases h
    exact .inl rfl
  next plan hPlan =>
  simp only [bind_ok] at h
  obtain ⟨⟨vd, app⟩, ha, moved, hM, h⟩ := h
  have hA : ∀ af, moved.commit = .ok af → (∃ rf, vd = .stale ∨ vd = .refused rf) ∨
      Nonempty (w.Installing install af) := fun af hCommit =>
    (applyPlan_applies hOk ha hM hCommit).imp id fun ⟨ap⟩ => ⟨pv, plan, hR.symm, hPlan, ap⟩
  cases vd with
  | stale =>
    cases h
    exact .inl rfl
  | refused rf =>
    cases h
    exact .inl rfl
  | resolved | installed _ _ _ | waiting _ =>
    simp only [run_ok] at h
    obtain ⟨af, hCommit, -, rfl⟩ := h
    exact .inr ((hA _ hCommit).resolve_left (by simp))

theorem Accepting.planned (acc : w.Accepting expectedPubkey signRef acceptedAt accept w') :
    Planned accept.coordinate w.resources[coordinateKeyOf accept.coordinate]? (some w.store.queue.nextIntentId)
      acc.plan := planAccept_planned acc.hPlan

theorem Installing.planned (inst : w.Installing install w') :
    Planned install.successor.coordinate w.resources[coordinateKeyOf install.successor.coordinate]? none
      inst.plan := by
  rw [inst.hPrevious]
  exact planSourceInstall_planned inst.hPlan

end SemanticStore

section
omit [ProgramDigest]

theorem Applies.materializes (ap : Applies base co ni pl w')
    (h : base.store.Sound bs) (hPlan : Planned co pv drawn pl)
    (hA : ∀ candidate, pl.candidate = some candidate → candidate.Authentic bs) :
    Materializes base.store.events ap.address pl ap.events :=
  Semantic.materializes h hPlan ap.hAddress hA ap.hPredecessor ap.hDrop ap.hInstall

theorem Applies.keeps (ap : Applies base co ni pl w')
    (h : base.store.Sound bs) (hPlan : Planned co pv drawn pl)
    (hA : ∀ candidate, pl.candidate = some candidate → candidate.Authentic bs) :
    Store.Keeps bs base.store w'.store := by
  have hRows := ap.materializes h hPlan hA
  have hQ := queueAuthentic_of_journals h.queue
    ((writeQueue_journals co pl ni base.store.queue ap.members).trans ap.hLanes.journals)
  have hD : Store.Sound bs { base.store with events := ap.events } := by
    refine h.with_events (hRows.ok h.events) fun id st hAt => ?_
    rcases hRows.row_cases hAt with hO | ⟨candidate, generation, hCandidate, -, -, rfl⟩
    · exact .inl hO
    obtain ⟨_, _, _, _, hM⟩ := hPlan.candidate candidate hCandidate
    have hB := hA candidate hCandidate hM.verified
    refine .inr ⟨hB.of_sameBody (candidateEvent_sameBody candidate), ?_⟩
    have hRefusal := ap.hRefusal
    simp only [candidateRefusal, hCandidate, bind_some] at hRefusal
    split_ifs at hRefusal with hR
    exact not_eq_true _ ▸ hR
  exact (hD.with_queue hQ).commits (fun _ hR => hR) ap.hCommit

theorem commit_store (h : w.commit = .ok w') : w.store.commit = .ok w'.store := by
  simp only [SemanticStore.commit, run_ok] at h
  obtain ⟨st, hS, rfl⟩ := h
  exact hS

end

theorem SemanticStore.Accepting.keeps
    {accept : SemanticAccept} (ac : w.Accepting expectedPubkey signRef acceptedAt accept w')
    (h : w.store.Sound bs) (hA : ∀ candidate, accept.materialized = some candidate → candidate.Authentic bs) :
    Store.Keeps bs w.store w'.store := by
  have hB : w.allocated.store.Sound bs := h.with_queue ⟨h.queue.displaced, h.queue.frozen⟩
  have hK := ac.applies.keeps hB ac.planned fun candidate hCandidate =>
    hA candidate (planAccept_candidate ac.hPlan ▸ hCandidate)
  exact ⟨hK.sound, hK.rested, hK.remembers⟩

theorem SemanticStore.Installing.keeps (is : w.Installing install w') (h : w.store.Sound bs)
    (hA : ∀ candidate, install.successor.materialized = some candidate → candidate.Authentic bs) :
    Store.Keeps bs w.store w'.store :=
  is.applies.keeps h is.planned fun candidate hCandidate =>
    hA candidate (planSourceInstall_candidate is.hPlan ▸ hCandidate)

omit [ProgramDigest] [ShardHash] in
theorem signMember_journals (co : Coordinate) (q : Queue) (e : IntentId × MemberRecord) :
    JournalsOperations q (SemanticStore.signMember co q e) :=
  journalsOperations_insert rfl

namespace SemanticStore

section
omit [ProgramDigest]

theorem Promotion.holds (pr : w.Promotion co mat ver o w')
    (h : w.store.events.Ok) : w.store.events.Holds pr.row.event.id pr.key pr.row := by
  have hW := pr.hRow
  unfold EventTables.loadAt at hW
  cases hK : w.store.events.addrIndex[pr.address]? with
  | none => simp [hK] at hW
  | some k =>
    simp only [hK, h.loadByKey_eq, bind_ok, Except.ok.injEq, exists_eq_left'] at hW
    cases hS : w.store.events.stored k with
    | none => simp [hS] at hW
    | some st =>
      rw [hS] at hW
      cases Option.some.inj (pure_ok.mp hW)
      exact ⟨(h.ids _ _).mpr ⟨_, EventTables.stored_event hS, rfl⟩, hS⟩

theorem Promotion.rows (prom : w.Promotion coordinate mat ver o w')
    (h : w.store.events.Ok) :
    ∃ events : EventTables, events.Ok ∧
      events.rowOf = update w.store.events.rowOf prom.row.event.id
        (some ⟨{ prom.row.event with sig := ver.signature },
          ⟨prom.row.provenance.seen, some ⟨prom.origin.owners, .signed⟩⟩⟩) ∧
      Store.commit { w.store with
        events
        queue := prom.members.foldl (signMember coordinate) w.store.queue } = .ok w'.store := by
  have hS : ({ prom.row.event with sig := ver.signature } : Event).SameBody prom.row.event := rfl
  obtain ⟨hR, hH, hRows⟩ := EventTables.replaceEvent_ok h (prom.holds h) hS
  obtain ⟨hOk, -, hRows'⟩ := EventTables.replaceLocal_ok hR hH (some ⟨prom.origin.owners, .signed⟩)
  refine ⟨_, hOk, ?_, commit_store prom.hCommit⟩
  rw [hRows', hRows, update_idem]

theorem Promotion.keeps (prom : w.Promotion coordinate mat ver o w')
    (h : w.store.Sound bodies) : Store.Keeps bodies w.store w'.store := by
  obtain ⟨events, hOk, hRows, hCommit⟩ := prom.rows h.events
  have hAt := (prom.holds h.events).rowOf
  have hD := h.with_rewrite hOk hAt (by exact rfl) hRows
  have hQ := queueAuthentic_of_journals h.queue
    (journalsOperations_foldl (signMember_journals coordinate) prom.members w.store.queue)
  exact (hD.with_queue hQ).commits (fun _ hR => hR) hCommit

end

omit [ProgramDigest] [ShardHash] in
theorem settleMember_journals
    (h : settleMember co mat now q e = .ok q') : JournalsOperations q q' := by
  obtain ⟨rs, sequence, time, rfl⟩ := Queue.markTerminalReceipt_frame h
  refine ⟨rfl, fun o fd hAt => .inl ?_⟩
  exact of_erase hAt

variable {close : SemanticCohortClose}

section
omit [ProgramDigest]

theorem Closing.journals (sh : w.Closing close now o w') : JournalsOperations w.store.queue sh.queue :=
  foldlM_induction (fun _ m => JournalsOperations w.store.queue m) (.refl _)
    (fun _ _ _ _ _ hD hN => hD.trans (settleMember_journals hN)) sh.hQueue

theorem Closing.keeps
    (sh : w.Closing close now o w') (h : w.store.Sound bs) : Store.Keeps bs w.store w'.store :=
  (h.with_queue (queueAuthentic_of_journals h.queue sh.journals)).commits (fun _ hR => hR)
    (commit_store sh.hCommit)

end

end SemanticStore

end

end NmpStore.Semantic
