import NmpStore.Store.Effects

/-! # What signing and compensating do

The inversions of the doors through which an intent ends.
-/

namespace NmpStore

theorem ownedBy_iff : ownedBy st i = true ↔
    ∃ ow sigState, st.provenance.localOrigin = some ⟨ow, sigState⟩ ∧ i ∈ ow := by
  unfold ownedBy
  cases ho : st.provenance.localOrigin with
  | none => simp
  | some og =>
    obtain ⟨ow, sigState⟩ := og
    simp only [any_some, decide_eq_true_eq, Option.some.injEq, LocalOrigin.mk.injEq]
    exact ⟨fun h => ⟨ow, sigState, ⟨rfl, rfl⟩, h⟩, fun ⟨_, _, ⟨h, _⟩, hM⟩ => h ▸ hM⟩

namespace Store

variable [ShardHash] {s s' : Store}

variable {q : Queue} {id : EventId} {row se : StoredEvent}

section
omit [ShardHash]

theorem findDisplaced_some (hF : q.findDisplaced id i = some fd) :
    q.displaced[fd.1]? = some fd.2 ∧ fd.2.event.id = id ∧ ownedBy fd.2 i = true := by
  have hM := List.mem_of_find?_eq_some hF
  have hT := find?_some hF
  simp only [and_eq_true, decide_eq_true_eq] at hT
  exact ⟨mem_toList.mp hM, hT.2, hT.1⟩

theorem findDisplaced_none (hNone : q.findDisplaced id i = none) (k : IntentId)
    (st : StoredEvent) (hAt : q.displaced[k]? = some st) (hId : st.event.id = id) : ownedBy st i = false := by
  have hT := List.find?_eq_none.mp hNone (k, st) (mem_toList.mpr hAt)
  simp only [and_eq_true, decide_eq_true_eq, not_and, hId, not_true_eq_false, imp_false] at hT
  simpa [ownedBy] using hT

end

theorem loadOwned_cases (h : s.events.Ok) (i : IntentId)
    (hL : s.events.loadById id = .ok fd) : ((fd.filter fun fd => ownedBy fd.2 i) = none ∧
        ∀ st, s.events.rowOf id = some st → ownedBy st i = false) ∨
      ∃ k st, (fd.filter fun fd => ownedBy fd.2 i) = some (k, st) ∧ s.events.Holds id k st ∧
        ownedBy st i = true := by
  rcases h.loadById_cases hL with ⟨rfl, hNone⟩ | ⟨k, st, rfl, hAt⟩
  · exact .inl ⟨rfl, by simp [hNone]⟩
  cases hOwned : ownedBy st i with
  | true => exact .inr ⟨k, st, by simp [Option.filter, hOwned], hAt, hOwned⟩
  | false =>
    refine .inl ⟨by simp [Option.filter, hOwned], fun o hX => ?_⟩
    rw [← Option.some.inj (hAt.rowOf.symm.trans hX)]
    exact hOwned

inductive Signs (s : Store) (intentId : IntentId) (signed : Event) : StoredEvent → Store → Prop where
  | row {st : StoredEvent} {owners : ExtTreeSet IntentId} {events : EventTables}
      (hAt : s.events.rowOf signed.id = some st) (hPending : st.provenance.localOrigin = some ⟨owners, .pending⟩)
      (hOwned : intentId ∈ owners) (hOk : events.Ok)
      (hRows : events.rowOf = update s.events.rowOf signed.id
        (some ⟨signed, { st.provenance with localOrigin := some ⟨owners, .signed⟩ }⟩)) :
      Signs s intentId signed ⟨signed, { st.provenance with localOrigin := some ⟨owners, .signed⟩ }⟩ { s with events }
  | signedRow {st : StoredEvent} {owners : ExtTreeSet IntentId} (hAt : s.events.rowOf signed.id = some st)
      (hSigned : st.provenance.localOrigin = some ⟨owners, .signed⟩) (hOwned : intentId ∈ owners) :
      Signs s intentId signed st s
  | stash {other : IntentId} {st : StoredEvent}
      (hNotLive : ∀ st, s.events.rowOf signed.id = some st → ownedBy st intentId = false)
      (hAt : s.queue.displaced[other]? = some st) (hId : st.event.id = signed.id) (hOwned : ownedBy st intentId = true) :
      Signs s intentId signed (st.signWith signed)
        { s with queue := { s.queue with displaced := s.queue.displaced.insert other (st.signWith signed) } }
  | gone (hNotLive : ∀ st, s.events.rowOf signed.id = some st → ownedBy st intentId = false)
      (hUnstashed : ∀ (key : IntentId) st, s.queue.displaced[key]? = some st → st.event.id = signed.id →
        ownedBy st intentId = false) :
      Signs s intentId signed ⟨signed, ⟨∅, some ⟨(∅ : ExtTreeSet IntentId).insert intentId, .signed⟩⟩⟩ s

theorem signDraft_ok (h : s.events.Ok) (hs : ∀ st, s.events.rowOf signed.id = some st → signed.SameBody st.event)
    (hOk : s.signDraft i signed = .ok (row, s')) : s.Signs i signed row s' := by
  obtain ⟨fd, hL, hOk⟩ := bind_ok.mp hOk
  rcases loadOwned_cases h i hL with ⟨hF, hNotLive⟩ | ⟨k, st, hF, hAt, hOwned⟩
  · rw [hF] at hOk
    cases hS : s.queue.findDisplaced signed.id i with
    | some e =>
      obtain ⟨hD, hId, hOwned⟩ := findDisplaced_some hS
      rw [hS] at hOk
      cases hOk
      exact .stash hNotLive hD hId hOwned
    | none =>
      rw [hS] at hOk
      cases hOk
      exact .gone hNotLive (findDisplaced_none hS)
  rw [hF] at hOk
  obtain ⟨ow, sigState, hO, hM⟩ := ownedBy_iff.mp hOwned
  cases sigState with
  | signed =>
    simp only [hO, StoredEvent.signWith] at hOk
    cases hOk
    exact .signedRow hAt.rowOf hO hM
  | pending =>
    simp only [hO, StoredEvent.signWith] at hOk
    cases hOk
    obtain ⟨hR, hH, hRows⟩ := EventTables.replaceEvent_ok h hAt (hs st hAt.rowOf)
    obtain ⟨hSigned, -, hRows'⟩ := EventTables.replaceLocal_ok hR hH (some ⟨ow, .signed⟩)
    refine .row hAt.rowOf hO hM hSigned ?_
    rw [hRows', hRows, update_idem]

def leftOrigin (st : StoredEvent) (intentId : IntentId) : LocalOrigin :=
  ⟨(ownersOf st.provenance.localOrigin).erase intentId, (st.provenance.localOrigin.map LocalOrigin.sigState).getD .signed⟩

def leftRow (st : StoredEvent) (intentId : IntentId) : StoredEvent :=
  { st with provenance := { st.provenance with localOrigin := some (leftOrigin st intentId) } }

inductive Disowns (s : Store) (intentId : IntentId) (frozenId : EventId) : Store → Prop where
  | retracted {st : StoredEvent} {events : EventTables} (hAt : s.events.rowOf frozenId = some st)
      (hOwned : ownedBy st intentId = true) (hRetract : shouldRetract st (leftOrigin st intentId) = true)
      (hOk : events.Ok) (hRows : events.rowOf = update s.events.rowOf frozenId none) :
      Disowns s intentId frozenId { s with events }
  | kept {st : StoredEvent} {events : EventTables} (hAt : s.events.rowOf frozenId = some st)
      (hOwned : ownedBy st intentId = true) (hKeep : shouldRetract st (leftOrigin st intentId) = false)
      (hOk : events.Ok) (hRows : events.rowOf = update s.events.rowOf frozenId (some (leftRow st intentId))) :
      Disowns s intentId frozenId { s with events }
  | dropped {other : IntentId} {st : StoredEvent}
      (hNotLive : ∀ st, s.events.rowOf frozenId = some st → ownedBy st intentId = false)
      (hAt : s.queue.displaced[other]? = some st) (hId : st.event.id = frozenId) (hOwned : ownedBy st intentId = true)
      (hRetract : shouldRetract st (leftOrigin st intentId) = true) :
      Disowns s intentId frozenId { s with queue := { s.queue with displaced := s.queue.displaced.erase other } }
  | stashed {other : IntentId} {st : StoredEvent}
      (hNotLive : ∀ st, s.events.rowOf frozenId = some st → ownedBy st intentId = false)
      (hAt : s.queue.displaced[other]? = some st) (hId : st.event.id = frozenId) (hOwned : ownedBy st intentId = true)
      (hKeep : shouldRetract st (leftOrigin st intentId) = false) :
      Disowns s intentId frozenId
        { s with queue := { s.queue with displaced := s.queue.displaced.insert other (leftRow st intentId) } }
  | nowhere (hNotLive : ∀ st, s.events.rowOf frozenId = some st → ownedBy st intentId = false)
      (hUnstashed : ∀ (key : IntentId) st, s.queue.displaced[key]? = some st → st.event.id = frozenId →
        ownedBy st intentId = false) :
      Disowns s intentId frozenId s

theorem disown_ok (h : s.events.Ok) (hOk : s.disown i frozenId = .ok s') : s.Disowns i frozenId s' := by
  obtain ⟨fd, hl, hOk⟩ := bind_ok.mp hOk
  rcases loadOwned_cases h i hl with ⟨hF, hNotLive⟩ | ⟨k, st, hF, hAt, hOwned⟩
  · rw [hF] at hOk
    cases hS : s.queue.findDisplaced frozenId i with
    | none =>
      rw [hS] at hOk
      cases hOk
      exact .nowhere hNotLive (findDisplaced_none hS)
    | some e =>
      obtain ⟨o, st⟩ := e
      obtain ⟨hD, hId, hOwned⟩ := findDisplaced_some hS
      dsimp only at hD hId hOwned
      obtain ⟨ow, sigState, hO, -⟩ := ownedBy_iff.mp hOwned
      simp only [hS, hO] at hOk
      have hL : (⟨ow.erase i, sigState⟩ : LocalOrigin) = leftOrigin st i := by
        simp [leftOrigin, ownersOf, hO]
      rw [hL] at hOk
      split at hOk
      · rename_i hRetract
        cases hOk
        exact .dropped hNotLive hD hId hOwned hRetract
      · rename_i hKeep
        cases hOk
        exact .stashed hNotLive hD hId hOwned (by simpa using hKeep)
  · rw [hF] at hOk
    dsimp only at hOk
    split at hOk
    · rename_i hRetract
      simp only [run_ok] at hOk
      obtain ⟨⟨gn, ev⟩, hR, rfl⟩ := hOk
      obtain ⟨hE, hG, hRows⟩ := EventTables.removeRow_ok h hR
      rw [hAt.rowOf] at hG
      obtain rfl : gn = some st := by simpa [Option.filter] using hG
      exact .retracted hAt.rowOf hOwned hRetract hE hRows
    · rename_i hKeep
      cases hOk
      obtain ⟨hE, -, hRows⟩ := EventTables.replaceLocal_ok h hAt (some (leftOrigin st i))
      exact .kept hAt.rowOf hOwned (by simpa [leftOrigin] using hKeep) hE hRows

omit [ShardHash] in
theorem rejoined_sameBody (o se : StoredEvent) : (rejoined o se).event.SameBody o.event := by
  unfold rejoined
  split
  · rfl
  · exact .refl _

inductive Reinserts (s : Store) (se : StoredEvent) : Option StoredEvent → Store → Prop where
  | joined {existing : StoredEvent} {events : EventTables} (hAt : s.events.rowOf se.event.id = some existing)
      (hPending : rejoinsSigned existing se = false) (hOk : events.Ok)
      (hRows : events.rowOf = update s.events.rowOf se.event.id (some (rejoined existing se))) :
      Reinserts s se (some (rejoined existing se)) { s with events }
  | joinedSigned {existing : StoredEvent} {events : EventTables} {owners : ExtTreeSet IntentId} {q : Queue} {s' : Store}
      (hAt : s.events.rowOf se.event.id = some existing) (hSigned : rejoinsSigned existing se = true) (hOk : events.Ok)
      (hRows : events.rowOf = update s.events.rowOf se.event.id (some (rejoined existing se)))
      (hOwners : (rejoined existing se).provenance.localOrigin = some ⟨owners, .signed⟩)
      (hFan : s.queue.FansOut (rejoined existing se).event owners.toList q)
      (hDeletes : Deletes { s with events, queue := q } (Buries (rejoined existing se).event) s') :
      Reinserts s se (some (rejoined existing se)) s'
  | refused (hNew : s.events.rowOf se.event.id = none) (hRefuses : s.tombstones.refuses se.event = true) :
      Reinserts s se none s
  | placed {replaced : Option StoredEvent} {events : EventTables} (hNew : s.events.rowOf se.event.id = none)
      (hAllowed : s.tombstones.refuses se.event = false)
      (hPlaces : s.events.Places se.event se.provenance (.placed replaced) events) :
      Reinserts s se (some se) { s with events }
  | stale {events : EventTables} (hNew : s.events.rowOf se.event.id = none) (hAllowed : s.tombstones.refuses se.event = false)
      (hPlaces : s.events.Places se.event se.provenance .stale events) : Reinserts s se none { s with events }

theorem rejoin_ok (h : s.events.Ok)
    (hAt : s.events.Holds se.event.id k o) (hOk : s.rejoin k o se = .ok (res, s')) :
    s.Reinserts se res s' := by
  simp only [rejoin, bind_ok] at hOk
  obtain ⟨events, hR, hOk⟩ := hOk
  -- both ways the row ends as the joined one
  obtain ⟨hE, hRows⟩ : events.Ok ∧
      events.rowOf = update s.events.rowOf se.event.id (some (rejoined o se)) := by
    split at hR
    · obtain ⟨hD, hH, hM⟩ := EventTables.replaceEvent_ok h hAt (rejoined_sameBody o se)
      obtain ⟨hE, -, hRows⟩ := EventTables.replaceProvenance_ok hD hH hR
      exact ⟨hE, by rw [hRows, hM, update_idem]⟩
    rename_i hKeep
    obtain ⟨hE, -, hRows⟩ := EventTables.replaceProvenance_ok h hAt hR
    have hEvent : (rejoined o se).event = o.event := by simp only [rejoined, hKeep]; rfl
    exact ⟨hE, by rw [hRows, ← hEvent]⟩
  cases hSigned : rejoinsSigned o se with
  | false =>
    simp only [hSigned, false_eq_true, ↓reduceIte, pure_ok, Prod.mk.injEq] at hOk
    obtain ⟨rfl, rfl⟩ := hOk
    exact .joined hAt.rowOf hSigned hE hRows
  | true =>
    simp only [hSigned, ↓reduceIte, run_ok] at hOk
    obtain ⟨⟨tr, _⟩, hFan, rfl, rfl⟩ := hOk
    obtain ⟨q, hFan, hDeletes⟩ := fanOutSigned_ok (s := { s with events }) hE hFan
    obtain ⟨st, hO⟩ : ∃ st, se.provenance.localOrigin = some st := by
      cases hO : se.provenance.localOrigin with
      | none => simp [rejoinsSigned, hO] at hSigned
      | some st => exact ⟨st, rfl⟩
    have hOwners : (rejoined o se).provenance.localOrigin =
        some ⟨ownersOf (rejoined o se).provenance.localOrigin, .signed⟩ := by
      simp [rejoined, hO, hSigned, ownersOf]
    exact .joinedSigned hAt.rowOf hSigned hE hRows hOwners hFan hDeletes

theorem reinsertStashed_ok (h : s.events.Ok)
    (hOk : s.reinsertStashed se = .ok (res, s')) : s.Reinserts se res s' := by
  obtain ⟨fd, hL, hOk⟩ := bind_ok.mp hOk
  rcases h.loadById_cases hL with ⟨rfl, hNew⟩ | ⟨k, existing, rfl, hAt⟩
  · dsimp only at hOk
    split at hOk
    · rename_i hRefuses
      cases hOk
      exact .refused hNew hRefuses
    rename_i hAllowed
    have hAllowed : s.tombstones.refuses se.event = false := by simpa using hAllowed
    obtain ⟨⟨pl, ev⟩, hP, hOk⟩ := bind_ok.mp hOk
    have hPlaces := EventTables.place_ok h hNew hP
    cases pl with
    | placed rp =>
      cases hOk
      exact .placed hNew hAllowed hPlaces
    | stale =>
      cases hOk
      exact .stale hNew hAllowed hPlaces
  · exact rejoin_ok h hAt hOk

structure Commits (s s' : Store) : Prop where
  rested : s'.events.Rested
  rows : s'.events.rowOf = s.events.rowOf
  tombstones : s'.tombstones = s.tombstones
  queue : s'.queue = s.queue

theorem commit_ok (h : s.events.Ok) (hOk : s.commit = .ok s') : s.Commits s' := by
  simp only [commit, run_ok] at hOk
  obtain ⟨ev, hC, rfl⟩ := hOk
  obtain ⟨hR, hRows⟩ := EventTables.commit_ok h hC
  exact ⟨hR, hRows, rfl, rfl⟩

theorem Signs.ok (h : s.events.Ok) (hSigns : s.Signs i signed row s') : s'.events.Ok := by
  cases hSigns <;> assumption

inductive Promotes (s : Store) (intentId : IntentId) (verified : VerifiedSignature) : PromoteOutcome → Store → Prop where
  | notFound : Promotes s intentId verified .notFound s
  | promoted {record : IntentRecord} {frozen : Event} {sigState : IntentSigState} {row : StoredEvent} {mid after last : Store}
      {q : Queue} {coSigned : List IntentId} (hIntent : s.queue.intents[intentId]? = some record)
      (hEvent : record.event = some (frozen, sigState)) (hUnsigned : sigState ≠ .signed) (hId : verified.eventId = frozen.id)
      (hSigns : s.Signs intentId { frozen with sig := verified.signature } row mid)
      (hFan : mid.queue.FansOut row.event (ownersOf row.provenance.localOrigin).toList q)
      (hDeletes : Deletes { mid with queue := q } (Buries row.event) after) (hCommits : after.Commits last) :
      Promotes s intentId verified (.promoted row coSigned) last

theorem promoteSigned_ok (h : s.events.Ok)
    (hS : ∀ r fr sg st, s.queue.intents[i]? = some r → r.event = some (fr, sg) →
      s.events.rowOf fr.id = some st → fr.SameBody st.event)
    (hOk : s.promoteSigned i ver = .ok (o, s')) : s.Promotes i ver o s' := by
  unfold promoteSigned at hOk
  cases hAt : s.queue.intents[i]?.bind IntentRecord.event with
  | none =>
    rw [hAt] at hOk
    cases hOk
    exact .notFound
  | some wr =>
    obtain ⟨fr, sg⟩ := wr
    obtain ⟨r, hIntent, hEvent⟩ := bind_eq_some_iff.mp hAt
    rw [hAt] at hOk
    dsimp only at hOk
    split at hOk
    · simp at hOk
    rename_i hId
    split at hOk
    · cases hOk
      exact .notFound
    rename_i hUnsigned
    simp only [run_ok] at hOk
    obtain ⟨⟨row, m⟩, hI, ⟨tr, af⟩, hFan, last, hC, rfl, rfl⟩ := hOk
    have hB : Event.SameBody { fr with sig := ver.signature } fr := rfl
    have hSigns := signDraft_ok h (fun st hs => hB.trans (hS r fr sg st hIntent hEvent hs)) hI
    obtain ⟨q, hFan, hDeletes⟩ := fanOutSigned_ok (hSigns.ok h) hFan
    exact .promoted hIntent hEvent hUnsigned (by simpa using hId) hSigns hFan hDeletes (commit_ok hDeletes.ok hC)

def closed (s : Store) (intentId : IntentId) : Store :=
  { s with
    queue := { s.queue with intents := s.queue.intents.erase intentId, displaced := s.queue.displaced.erase intentId } }

inductive Restores (s : Store) (intentId : IntentId) : Option StoredEvent → Store → Prop where
  | nothing (hNone : s.queue.displaced[intentId]? = none) : Restores s intentId none (s.closed intentId)
  | offered {se : StoredEvent} {restored : Option StoredEvent} {s' : Store} (hAt : s.queue.displaced[intentId]? = some se)
      (hReinserts : (s.closed intentId).Reinserts se restored s') : Restores s intentId restored s'

theorem restoreDisplaced_ok (h : s.events.Ok)
    (hOk : s.restoreDisplaced i = .ok (restored, s')) : s.Restores i restored s' := by
  unfold restoreDisplaced at hOk
  cases hAt : s.queue.displaced[i]? with
  | none =>
    rw [hAt] at hOk
    cases hOk
    exact .nothing hAt
  | some se =>
    rw [hAt] at hOk
    exact .offered hAt (reinsertStashed_ok (s := s.closed i) h hOk)

omit [ShardHash] in
theorem releaseClaims_ok (hOk : s.releaseClaims i = .ok (revealed, s')) :
    s' = { s with queue := s.queue.dropClaims i } := by
  simp only [releaseClaims, run_ok] at hOk
  obtain ⟨-, -, -, -, -, rfl⟩ := hOk
  rfl

theorem Disowns.ok (h : s.events.Ok) (hDisowns : s.Disowns i frozenId s') : s'.events.Ok := by
  cases hDisowns <;> assumption

theorem Reinserts.ok (h : s.events.Ok) (hReinserts : s.Reinserts se res s') : s'.events.Ok := by
  cases hReinserts with
  | joined _ _ hOk _ => exact hOk
  | joinedSigned _ _ _ _ _ _ hDeletes => exact hDeletes.ok
  | refused => exact h
  | placed _ _ hPlaces => exact hPlaces.ok h
  | stale _ _ hPlaces => exact hPlaces.ok h

theorem Restores.ok (h : s.events.Ok) (hRestores : s.Restores i restored s') : s'.events.Ok := by
  cases hRestores with
  | nothing => exact h
  | offered _ hReinserts => exact Reinserts.ok (s := s.closed i) h hReinserts

inductive Compensates (s : Store) (intentId : IntentId) : CompensateOutcome → Store → Prop where
  | notFound : Compensates s intentId .notFound s
  | alreadySigned : Compensates s intentId .alreadySigned s
  | compensated {record : IntentRecord} {frozen : Event} {sigState : IntentSigState} {mid after last : Store}
      {restored : Option StoredEvent} {revealed : List StoredEvent} {receipts : Table Nat ReceiptRecord} {sequence time : Nat}
      (hIntent : s.queue.intents[intentId]? = some record) (hEvent : record.event = some (frozen, sigState))
      (hUnsigned : sigState ≠ .signed) (hDisowns : s.Disowns intentId frozen.id mid)
      (hRestores : mid.Restores intentId restored after)
      (hCommits : Commits
        { after with
          queue := { after.queue.dropClaims intentId with
            receipts, nextTerminalSequence := sequence, lastTerminalAt := time } } last)
      (hReceipts : after.queue.Terminates record.receiptId { after.queue with receipts }) :
      Compensates s intentId (.compensated restored revealed) last

theorem compensateWrite_ok (h : s.events.Ok)
    (hOk : s.compensateWrite i reason now = .ok (out, s')) : s.Compensates i out s' := by
  unfold compensateWrite at hOk
  split at hOk
  · cases hOk
    exact .notFound
  rename_i r hIntent
  split at hOk
  · cases hOk
    exact .notFound
  rename_i fr sg hEvent
  split at hOk
  · cases hOk
    exact .alreadySigned
  rename_i hUnsigned
  simp only [run_ok] at hOk
  obtain ⟨m, hD, ⟨restored, af⟩, hR, ⟨revealed, _⟩, hr, _, hC, _, hM, last, hc,
    rfl, rfl⟩ := hOk
  have hDisowns := disown_ok h hD
  have hRestores := restoreDisplaced_ok (hDisowns.ok h) hR
  obtain rfl := releaseClaims_ok hr
  have hReceipts := Queue.updateReceipt_terminates hC hM
  have hS : (af.queue.dropClaims i).receipts = af.queue.receipts := by
    obtain ⟨_, _, _, hE⟩ := af.queue.dropClaims_frame i
    rw [hE]
  obtain ⟨rs, rfl⟩ := Queue.updateReceipt_frame hC
  obtain ⟨rs', sequence, time, rfl⟩ := Queue.markTerminalReceipt_frame hM
  have hA := hRestores.ok (hDisowns.ok h)
  refine .compensated hIntent hEvent hUnsigned hDisowns hRestores (commit_ok (by exact hA) hc) ⟨?_, ?_⟩
  · exact fun o hX => (hReceipts.others o hX).trans (by rw [hS])
  · obtain ⟨b, last, hB, hL⟩ := hReceipts.terminal
    exact ⟨b, last, by rw [← hS]; exact hB, hL⟩

end Store

end NmpStore
