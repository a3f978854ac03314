import NmpStore.Store.RowEffects
import NmpStore.Store.Deadlines

/-! # What the doors do

One inversion for each door: which way it went, and what became of the rows, the tombstones and the journal.
-/

namespace NmpStore

namespace Queue

def ClaimsOnly (q q' : Queue) : Prop := ∃ claims ids addrs,
  q' = { q with kind5Claims := claims, suppressIds := ids, suppressAddrs := addrs }

theorem ClaimsOnly.refl (q : Queue) : q.ClaimsOnly q := ⟨_, _, _, rfl⟩

variable {q q' : Queue}

theorem ClaimsOnly.trans (h : q.ClaimsOnly q') (h' : q'.ClaimsOnly q'') : q.ClaimsOnly q'' := by
  obtain ⟨cl, ids, addrs, rfl⟩ := h
  obtain ⟨cl', ids', addrs', rfl⟩ := h'
  exact ⟨cl', ids', addrs', rfl⟩

theorem ClaimsOnly.foldl {α : Type} {f : Queue → α → Queue} (hS : ∀ (q : Queue) (a : α), q.ClaimsOnly (f q a))
    (l : List α) (q : Queue) : q.ClaimsOnly (l.foldl f q) := by
  induction l generalizing q with
  | nil => exact .refl q
  | cons a l ih => exact (hS q a).trans (ih _)

theorem removeClaim_frame (i : IntentId) (q : Queue) (cl : SuppressClaim) : q.ClaimsOnly
    (removeClaim i q cl) := by
  cases cl with
  | id t ah =>
    unfold removeClaim removeClaimant
    dsimp only
    split
    · exact .refl q
    · split <;> exact ⟨_, _, _, rfl⟩
  | addr k cn ah =>
    unfold removeClaim removeAddrClaimant
    dsimp only
    split
    · exact .refl q
    · split <;> exact ⟨_, _, _, rfl⟩

theorem dropClaims_frame (q : Queue) (i : IntentId) : q.ClaimsOnly (q.dropClaims i) := by
  unfold dropClaims
  split
  · exact .refl q
  rename_i cl _
  have hF : q.ClaimsOnly { q with kind5Claims := q.kind5Claims.erase i } := ⟨_, _, _, rfl⟩
  exact hF.trans (.foldl (removeClaim_frame i) cl _)

theorem addClaim_frame (i : IntentId) (q : Queue) (cl : SuppressClaim) : q.ClaimsOnly
    (Store.addClaim i q cl) := by
  cases cl <;> exact ⟨_, _, _, rfl⟩

theorem updateGovernedReceipt_frame
    (hOk : q.updateGovernedReceipt rcId st = .ok q') : ∃ receipts, q' = { q with receipts } := by
  unfold updateGovernedReceipt at hOk
  split at hOk
  · simp at hOk
  split at hOk
  · simp at hOk
  simp only [run_ok] at hOk
  obtain ⟨-, -, rfl⟩ := hOk
  exact ⟨_, rfl⟩

theorem updateReceipt_frame (hOk : q.updateReceipt rcId st = .ok q') : ∃ receipts, q' = { q with receipts } := by
  unfold updateReceipt at hOk
  split at hOk
  · simp at hOk
  split at hOk
  · simp at hOk
  · cases hOk
    exact ⟨_, rfl⟩

theorem markTerminalReceipt_frame (hOk : q.markTerminalReceipt rcId now = .ok q') :
    ∃ receipts sq tm, q' = { q with receipts, nextTerminalSequence := sq, lastTerminalAt := tm } := by
  unfold markTerminalReceipt at hOk
  split at hOk
  · simp at hOk
  split at hOk
  · cases hOk
    exact ⟨_, _, _, rfl⟩
  simp only [run_ok] at hOk
  obtain ⟨-, -, rfl⟩ := hOk
  exact ⟨_, _, _, rfl⟩

end Queue

def ReceiptPayload.coordinate : ReceiptPayload → Option Coordinate
  | .replaceableOperation coordinate _ _ => some coordinate
  | .event _ _ => none

def ReceiptRecord.file (receipt : ReceiptRecord) : Option IntentId × Option Coordinate × Option (Nat × Nat) :=
  (receipt.intentId, receipt.payload.coordinate, receipt.terminal)

namespace Queue

variable {q q' : Queue}

def SameFiles (q q' : Queue) : Prop :=
  ∀ receiptId : Nat, (q'.receipts[receiptId]?).map ReceiptRecord.file = (q.receipts[receiptId]?).map ReceiptRecord.file

def SameDelivery (q q' : Queue) : Prop :=
  (q'.nextIntentId = q.nextIntentId ∧ q'.nextReceiptId = q.nextReceiptId) ∧ q'.lanes = q.lanes ∧ q'.deadlines = q.deadlines ∧
    q'.attempts = q.attempts ∧ q'.attemptDetails = q.attemptDetails ∧ q'.routeRevisions = q.routeRevisions

theorem SameDelivery.refl (q : Queue) : q.SameDelivery q := ⟨⟨rfl, rfl⟩, rfl, rfl, rfl, rfl, rfl⟩

theorem SameDelivery.trans (h : q.SameDelivery q') (h' : q'.SameDelivery q'') : q.SameDelivery q'' := by
  obtain ⟨⟨a, b⟩, c, d, e, f, g⟩ := h
  obtain ⟨⟨a', b'⟩, c', d', e', f', g'⟩ := h'
  exact ⟨⟨a'.trans a, b'.trans b⟩, c'.trans c, d'.trans d, e'.trans e, f'.trans f, g'.trans g⟩

theorem updateGovernedReceipt_files (hOk : q.updateGovernedReceipt rcId st = .ok q') : q.SameFiles q' := by
  unfold updateGovernedReceipt at hOk
  cases hAt : q.receipts[rcId]? with
  | none => simp [hAt] at hOk
  | some r =>
    simp only [hAt] at hOk
    split at hOk
    · simp at hOk
    next ed c hP =>
    simp only [run_ok] at hOk
    obtain ⟨-, -, rfl⟩ := hOk
    intro o
    simp only [get_insert]
    split_ifs with hX
    · subst hX
      simp [hAt, ReceiptRecord.file, hP, ReceiptPayload.coordinate]
    · rfl

structure Terminates (q : Queue) (receiptId : Nat) (q' : Queue) : Prop where
  others : ∀ other : Nat, other ≠ receiptId → q'.receipts[other]? = q.receipts[other]?
  terminal : ∃ before after, q.receipts[receiptId]? = some before ∧ q'.receipts[receiptId]? = some after ∧
    after.intentId = before.intentId ∧ after.payload.coordinate = before.payload.coordinate ∧ after.terminal.isSome

theorem updateReceipt_terminates
    (hU : q.updateReceipt rcId st = .ok m) (hM : m.markTerminalReceipt rcId now = .ok q') :
    q.Terminates rcId q' := by
  unfold updateReceipt at hU
  cases hAt : q.receipts[rcId]? with
  | none => simp [hAt] at hU
  | some record =>
    simp only [hAt] at hU
    split at hU
    · simp at hU
    next ed c hP =>
    cases hU
    unfold markTerminalReceipt at hM
    simp only [get_insert, if_true] at hM
    split at hM
    · next hT =>
      cases hM
      refine ⟨fun o hX => ?_, record, { record with payload := .event ed st }, hAt, ?_, rfl, ?_, hT⟩
      · simp [Ne.symm hX]
      · simp
      · simp [hP, ReceiptPayload.coordinate]
    simp only [run_ok] at hM
    obtain ⟨-, -, rfl⟩ := hM
    refine ⟨fun o hX => ?_, record, { record with
      payload := .event ed st, terminal := some (q.nextTerminalSequence, max now q.lastTerminalAt) },
      hAt, ?_, rfl, ?_, rfl⟩
    · simp [Ne.symm hX]
    · simp
    · simp [hP, ReceiptPayload.coordinate]

end Queue

def IntentRecord.signWith (canonical : Event) (record : IntentRecord) : IntentRecord :=
  match record.work with
  | .event _ routing sigState => if sigState = .signed then record else { record with work := .event canonical routing .signed }
  | .replaceableOperation _ _ => record

theorem IntentRecord.signWith_idem (cn : Event) (r : IntentRecord) :
    (r.signWith cn).signWith cn = r.signWith cn := by
  unfold IntentRecord.signWith
  cases hW : r.work with
  | replaceableOperation co mt => simp [hW]
  | event fr rt sg => by_cases hS : sg = .signed <;> simp [hW, hS]

structure Queue.FansOut (q : Queue) (canonical : Event) (owners : List IntentId) (q' : Queue) : Prop where
  displaced : ∀ owner : IntentId, q'.displaced[owner]? = if owner ∈ owners then none else q.displaced[owner]?
  intents : ∀ owner : IntentId, q'.intents[owner]? =
    if owner ∈ owners then (q.intents[owner]?).map (IntentRecord.signWith canonical) else q.intents[owner]?
  files : q.SameFiles q'
  delivery : q.SameDelivery q'

theorem Queue.FansOut.of_frame {q q' q'' : Queue} (h : q.FansOut canon owns q')
    (hF : q'.ClaimsOnly q'') : q.FansOut canon owns q'' := by
  obtain ⟨cl, ids, addrs, rfl⟩ := hF
  exact ⟨h.displaced, h.intents, h.files, h.delivery⟩

namespace Store

variable {s s' : Store} {next : List IntentId}

theorem fanOutOwner_ok {ow : IntentId} (hOk : fanOutOwner canon (done, s) ow = .ok (next, s')) :
    ∃ q, s' = { s with queue := q } ∧ s.queue.FansOut canon [ow] q := by
  -- the release of claims touches neither the journal nor the stashes
  have hR : ∀ q : Queue, q.ClaimsOnly (if canon.isDeletion then q.dropClaims ow else q) := fun q => by
    split
    · exact q.dropClaims_frame ow
    · exact .refl q
  have hE : ∀ o : IntentId, (s.queue.displaced.erase ow)[o]? =
      if o ∈ [ow] then none else s.queue.displaced[o]? := fun o => by
    simp [eq_comm]
  unfold fanOutOwner at hOk
  cases hAt : s.queue.intents[ow]? with
  | none =>
    simp only [hAt, pure_ok, Prod.mk.injEq] at hOk
    obtain ⟨-, rfl⟩ := hOk
    refine ⟨_, rfl, Queue.FansOut.of_frame ⟨hE, fun o => ?_, ?_, ?_⟩ (hR _)⟩
    · by_cases hX : o = ow <;> simp [hX, hAt]
    · exact fun _ => rfl
    · exact .refl _
  | some r =>
    have hS : r.signWith canon = r → ∀ o : IntentId, s.queue.intents[o]? =
        if o ∈ [ow] then (s.queue.intents[o]?).map (IntentRecord.signWith canon) else s.queue.intents[o]? :=
      fun hs o => by by_cases hX : o = ow <;> simp [hX, hAt, hs]
    simp only [hAt] at hOk
    cases hW : r.work with
    | replaceableOperation co mt =>
      simp only [hW, pure_ok, Prod.mk.injEq] at hOk
      obtain ⟨-, rfl⟩ := hOk
      refine ⟨_, rfl, Queue.FansOut.of_frame ⟨hE, ?_, ?_, ?_⟩ (hR _)⟩
      · exact hS (by simp [IntentRecord.signWith, hW])
      · exact fun _ => rfl
      · exact .refl _
    | event fr rt sg =>
      simp only [hW] at hOk
      split at hOk
      · rename_i hi
        simp only [pure_ok, Prod.mk.injEq] at hOk
        obtain ⟨-, rfl⟩ := hOk
        exact ⟨_, rfl, hE, hS (by simp [IntentRecord.signWith, hW, hi]), fun _ => rfl, .refl _⟩
      rename_i hU
      simp only [run_ok] at hOk
      obtain ⟨q, hr, -, rfl⟩ := hOk
      have hF := Queue.updateGovernedReceipt_files hr
      obtain ⟨rs, rfl⟩ := Queue.updateGovernedReceipt_frame hr
      refine ⟨_, rfl, Queue.FansOut.of_frame ⟨hE, fun o => ?_, ?_, ?_⟩ (hR _)⟩
      · by_cases hX : o = ow
        · simp [hX, hAt, IntentRecord.signWith, hW, hU]
        · simp [hX, Ne.symm hX]
      · exact hF
      · exact .refl _

theorem fanOutOwners_ok (hOk : owns.foldlM (fanOutOwner canon) (done, s) = .ok (next, s')) :
    ∃ q, s' = { s with queue := q } ∧ s.queue.FansOut canon owns q := by
  refine foldlM_induction (f := fanOutOwner canon)
    (fun se a => ∃ q, a.2 = { s with queue := q } ∧ s.queue.FansOut canon se q)
    ⟨s.queue, rfl, by simp, by simp, fun _ => rfl, .refl _⟩ (fun se ow a next _ hA hN => ?_) hOk
  obtain ⟨q, hs, hFan⟩ := hA
  obtain ⟨q', hn, hS⟩ := fanOutOwner_ok hN
  rw [hs] at hn hS
  refine ⟨q', hn, fun o => ?_, fun o => ?_, fun rc => (hS.files rc).trans
    (hFan.files rc), hFan.delivery.trans hS.delivery⟩
  · rw [hS.displaced, hFan.displaced]
    by_cases hX : o = ow <;> simp [hX]
  rw [hS.intents, hFan.intents]
  by_cases hX : o = ow
  · by_cases hE : ow ∈ se <;> simp [hX, hE, Function.comp_def, IntentRecord.signWith_idem]
  · simp [hX]

def Buries (canonical event : Event) : Prop := canonical.isDeletion = true ∧ canonical.Names event

variable [ShardHash]

theorem fanOutSigned_ok (h : s.events.Ok)
    (hOk : s.fanOutSigned owns canon = .ok (transitioned, s')) :
    ∃ q, s.queue.FansOut canon owns.toList q ∧ Deletes { s with queue := q } (Buries canon) s' := by
  obtain ⟨⟨done, m⟩, hO, hOk⟩ := bind_ok.mp hOk
  obtain ⟨q, rfl, hFan⟩ := fanOutOwners_ok hO
  refine ⟨q, hFan, ?_⟩
  dsimp only at hOk
  split at hOk
  · rename_i hDeletion
    simp only [run_ok] at hOk
    obtain ⟨⟨dl, _⟩, hD, -, rfl⟩ := hOk
    exact (processKind5Deletions_ok (s := { s with queue := q }) h hD).congr fun ev => by simp [Buries, hDeletion]
  · rename_i hRegular
    obtain ⟨-, rfl⟩ := hOk
    exact (Deletes.refl (s := { s with queue := q }) h).congr fun ev => by simp [Buries, hRegular]

end Store

def StoredEvent.observedBy (st : StoredEvent) (source : RelayObserved) : StoredEvent :=
  { st with provenance := { st.provenance with seen := EventTables.observe st.provenance.seen source.relay source.time } }

def RelayObserved.provenance (source : RelayObserved) : Provenance := ⟨(∅ : Table RelayUrl Nat).insert source.relay source.time, none⟩

namespace Store

variable [ShardHash] {s s' : Store}

def outcomeOf : EventTables.Placement → InsertOutcome
  | .placed none => .inserted
  | .placed (some replaced) => .superseded replaced
  | .stale => .stale

inductive Ingests (s : Store) (event : Event) (source : RelayObserved) : InsertOutcome → Store → Prop where
  | expired (hExpired : event.isExpiredAt source.time = true) : Ingests s event source (.refused .alreadyExpired) s
  | merged {events : EventTables} {grew : Bool} {st : StoredEvent} (hFresh : event.isExpiredAt source.time = false)
      (hAt : s.events.rowOf event.id = some st)
      (hSettled : ∀ owners, st.provenance.localOrigin ≠ some ⟨owners, .pending⟩) (hOk : events.Ok)
      (hRows : events.rowOf = update s.events.rowOf event.id (some (st.observedBy source))) :
      Ingests s event source (.duplicate grew [] st.provenance.localOrigin.isSome) { s with events }
  | adopted {events : EventTables} {grew : Bool} {st : StoredEvent} {owners : ExtTreeSet IntentId}
      {satisfied : List IntentId} {q : Queue} {s' : Store} (hFresh : event.isExpiredAt source.time = false)
      (hAt : s.events.rowOf event.id = some st)
      (hPending : st.provenance.localOrigin = some ⟨owners, .pending⟩) (hOk : events.Ok)
      (hRows : events.rowOf = update s.events.rowOf event.id
        (some ⟨event, ⟨(st.observedBy source).provenance.seen, some ⟨owners, .signed⟩⟩⟩))
      (hFan : s.queue.FansOut event owners.toList q) (hDeletes : Deletes { s with events, queue := q } (Buries event) s') :
      Ingests s event source (.duplicate grew satisfied true) s'
  | refused (hFresh : event.isExpiredAt source.time = false) (hNew : s.events.rowOf event.id = none)
      (hRefuses : s.tombstones.refuses event = true) :
      Ingests s event source (.refused .tombstoned) s
  | placed {placement : EventTables.Placement} {events : EventTables} (hFresh : event.isExpiredAt source.time = false)
      (hNew : s.events.rowOf event.id = none) (hAllowed : s.tombstones.refuses event = false)
      (hPlaces : s.events.Places event source.provenance placement events) (hRegular : event.isDeletion = false) :
      Ingests s event source (outcomeOf placement) { s with events }
  | deleting {events : EventTables} {deleted : List StoredEvent} {s' : Store} (hFresh : event.isExpiredAt source.time = false)
      (hNew : s.events.rowOf event.id = none) (hAllowed : s.tombstones.refuses event = false)
      (hDeletion : event.isDeletion = true) (hOk : events.Ok)
      (hRows : events.rowOf = update s.events.rowOf event.id (some ⟨event, source.provenance⟩))
      (hDeletes : Deletes { s with events } event.Names s') :
      Ingests s event source (.kind5Processed deleted) s'

theorem mergeDuplicate_ok (h : s.events.Ok) (hFresh : ev.isExpiredAt src.time = false)
    (hAt : s.events.Holds ev.id k st) (hs : ev.SameBody st.event)
    (hOk : s.mergeDuplicate k ev src = .ok (o, s')) : s.Ingests ev src o s' := by
  have ho : s.events.locals[k]? = st.provenance.localOrigin := by
    obtain ⟨r, -, rfl⟩ := map_eq_some_iff.mp hAt.row
    rfl
  simp only [mergeDuplicate, bind_ok, ho] at hOk
  obtain ⟨⟨gr, m⟩, hm, hOk⟩ := hOk
  obtain ⟨hM, hH, hRows⟩ := EventTables.mergeObservation_ok h hAt hm
  split at hOk
  · rename_i ow hPending
    obtain ⟨⟨ss, _⟩, hFan, hD⟩ := bind_ok.mp hOk
    cases hD
    obtain ⟨hR, hH, hRows'⟩ := EventTables.replaceEvent_ok hM hH hs
    obtain ⟨hS, -, hRows''⟩ := EventTables.replaceLocal_ok hR hH (some ⟨ow, .signed⟩)
    obtain ⟨q, hFan, hDeletes⟩ := fanOutSigned_ok (s := { s with events := _ }) hS hFan
    refine .adopted hFresh hAt.rowOf hPending hS ?_ hFan hDeletes
    rw [hRows'', hRows', hRows, update_idem, update_idem]
    rfl
  · rename_i hSettled
    cases hOk
    exact .merged hFresh hAt.rowOf (fun ow hPending => hSettled ow hPending) hM hRows

theorem insertWithTables_ok (h : s.events.Ok) (hS : ∀ st, s.events.rowOf ev.id = some st → ev.SameBody st.event)
    (hOk : s.insertWithTables ev src = .ok (o, s')) : s.Ingests ev src o s' := by
  unfold insertWithTables at hOk
  split at hOk
  · rename_i hExpired
    cases hOk
    exact .expired hExpired
  rename_i hFresh
  have hFresh : ev.isExpiredAt src.time = false := by simpa using hFresh
  cases hK : s.events.eventIds[ev.id]? with
  | some k =>
    rw [hK] at hOk
    obtain ⟨r, hW, -⟩ := (h.ids _ _).mp hK
    have hAt : s.events.Holds ev.id k ⟨r, ⟨s.events.seen k, s.events.locals[k]?⟩⟩ :=
      ⟨hK, by simp [EventTables.stored, hW]⟩
    exact mergeDuplicate_ok h hFresh hAt (hS _ hAt.rowOf) hOk
  | none =>
    rw [hK] at hOk
    have hNew := h.rowOf_none.mpr hK
    dsimp only at hOk
    split at hOk
    · rename_i hRefuses
      cases hOk
      exact .refused hFresh hNew hRefuses
    rename_i hAllowed
    have hAllowed : s.tombstones.refuses ev = false := by simpa using hAllowed
    obtain ⟨⟨pl, events⟩, hp, hOk⟩ := bind_ok.mp hOk
    have hPlaces := EventTables.place_ok h hNew hp
    cases hDeletion : ev.isDeletion with
    | false =>
      have hP := Ingests.placed hFresh hNew hAllowed hPlaces hDeletion
      cases pl with
      | stale =>
        cases hOk
        exact hP
      | placed rp =>
        cases rp with
        | none =>
          simp only [hDeletion, false_eq_true, ↓reduceIte] at hOk
          cases hOk
          exact hP
        | some rp =>
          cases hOk
          exact hP
    | true =>
      -- a deletion has no address to compete for
      have hN := addressOf_isDeletion hDeletion
      cases hPlaces with
      | wins hA => simp [hN] at hA
      | stale hA => simp [hN] at hA
      | free hF hE hRows =>
        simp only [hDeletion, ↓reduceIte, run_ok] at hOk
        obtain ⟨⟨dl, _⟩, hD, rfl, rfl⟩ := hOk
        exact .deleting hFresh hNew hAllowed hDeletion hE hRows
          (processKind5Deletions_ok (s := { s with events }) hE hD)

end Store

namespace Queue

variable {q q' : Queue}

def allocated (q : Queue) : Queue := { q with nextIntentId := q.nextIntentId + 1, nextReceiptId := q.nextReceiptId + 1 }

theorem alloc_cases (hI : q.allocIntentId = .ok (i, m))
    (hR : m.allocReceiptId = .ok (rcId, q')) :
    i = q.nextIntentId ∧ rcId = q.nextReceiptId ∧ q' = q.allocated := by
  simp only [allocIntentId, run_ok] at hI
  obtain ⟨-, -, rfl, rfl⟩ := hI
  simp only [allocReceiptId, run_ok] at hR
  obtain ⟨-, -, -, -, rfl, rfl⟩ := hR
  exact ⟨rfl, rfl, rfl⟩

def staked (q : Queue) (intentId : IntentId) (deleting : Event) : Queue :=
  let q := (Store.claimsOf deleting).foldl (Store.addClaim intentId) q
  { q with kind5Claims := q.kind5Claims.insert intentId (Store.claimsOf deleting) }

theorem staked_frame (q : Queue) (i : IntentId) (dl : Event) : q.ClaimsOnly (q.staked i dl) :=
  (ClaimsOnly.foldl (addClaim_frame i) _ q).trans ⟨_, _, _, rfl⟩

structure Retires (q : Queue) (retired : List RetiredIntent) (q' : Queue) : Prop where
  intents : ∀ owner : IntentId, q'.intents[owner]? =
    if owner ∈ retired.map RetiredIntent.intentId then none else q.intents[owner]?
  displaced : ∀ owner : IntentId, q'.displaced[owner]? =
    if owner ∈ retired.map RetiredIntent.intentId then none else q.displaced[owner]?
  claims : q'.kind5Claims = q.kind5Claims ∧ q'.suppressIds = q.suppressIds ∧ q'.suppressAddrs = q.suppressAddrs
  counters : q'.nextIntentId = q.nextIntentId ∧ q'.nextReceiptId = q.nextReceiptId
  receipts : ∀ receiptId : Nat, receiptId ∉ retired.map RetiredIntent.receiptId →
    q'.receipts[receiptId]? = q.receipts[receiptId]?
  terminal : ∀ one ∈ retired, ∀ receipt, q'.receipts[one.receiptId]? = some receipt → receipt.terminal.isSome
  lapses : q.Lapses q'
  gone : ∀ one ∈ retired, ∀ relay : QueueRelayId, q'.lanes[(one.intentId, relay)]? = none

theorem retireOwner_cases (hOk : retireOwner now q ret = .ok q') :
    ∃ receipts sequence time, q' =
        { q.forgetIntent ret.intentId with receipts, nextTerminalSequence := sequence, lastTerminalAt := time } ∧
      (∀ o : Nat, o ≠ ret.receiptId → receipts[o]? = q.receipts[o]?) ∧
      ∀ rc, receipts[ret.receiptId]? = some rc → rc.terminal.isSome := by
  unfold retireOwner at hOk
  dsimp only at hOk
  split at hOk
  · obtain ⟨m, hU, hM⟩ := bind_ok.mp hOk
    obtain ⟨hO, before, after, -, hA, -, -, hT⟩ := updateReceipt_terminates hU hM
    obtain ⟨receipts, rfl⟩ := updateReceipt_frame hU
    obtain ⟨receipts', sequence, time, rfl⟩ := markTerminalReceipt_frame hM
    refine ⟨receipts', sequence, time, rfl, hO, fun rc hAt => ?_⟩
    cases hA.symm.trans hAt
    exact hT
  · split at hOk
    · simp at hOk
    cases hOk
    refine ⟨_, _, _, rfl, fun o hX => ?_, fun rc hAt => ?_⟩
    · simp [Ne.symm hX, forgetIntent, clearIntentDeadlines]
    · simp at hAt

theorem retireOwners_ok (hOk : ret.foldlM (retireOwner now) q = .ok q') :
    q.Retires ret q' := by
  refine foldlM_induction (f := retireOwner now) (fun done a => q.Retires done a)
    ⟨by simp, by simp, ⟨rfl, rfl, rfl⟩, ⟨rfl, rfl⟩, by simp, by simp, .refl q, by simp⟩
    (fun done on a next _ hA hN => ?_) hOk
  obtain ⟨rs, sequence, time, rfl, hO, hT⟩ := retireOwner_cases hN
  refine ⟨fun ow => ?_, fun ow => ?_, hA.claims, hA.counters, fun rd hY => ?_,
    fun o hX rc hAt => ?_, hA.lapses.trans ((a.forgetIntent_lapses on.intentId).trans ?_),
    fun o hX r => ?_⟩
  · have hE : (a.intents.erase on.intentId)[ow]? = if on.intentId = ow then none else a.intents[ow]? :=
      get_erase _ _ _
    refine hE.trans ?_
    rw [hA.intents]
    grind
  · have hE : (a.displaced.erase on.intentId)[ow]? = if on.intentId = ow then none else a.displaced[ow]? :=
      get_erase _ _ _
    refine hE.trans ?_
    rw [hA.displaced]
    grind
  · rw [map_append, mem_append, not_or] at hY
    exact (hO rd (by simpa using hY.2)).trans (hA.receipts rd hY.1)
  · have hAt : rs[o.receiptId]? = some rc := hAt
    by_cases hS : o.receiptId = on.receiptId
    · exact hT rc (hS ▸ hAt)
    rcases mem_append.mp hX with hD | hL
    · exact hA.terminal o hD rc ((hO _ hS).symm.trans hAt)
    · exact absurd (by rw [mem_singleton.mp hL]) hS
  · exact .of_same rfl rfl rfl
  · have hF : (a.lanes.filter fun k _ => k.1 ≠ on.intentId)[(o.intentId, r)]? =
        if o.intentId = on.intentId then none else a.lanes[(o.intentId, r)]? := get_without ..
    refine hF.trans ?_
    split_ifs with hS
    · rfl
    · refine hA.gone o ((mem_append.mp hX).resolve_right fun hL => hS ?_) r
      rw [mem_singleton.mp hL]

theorem retireSupersededOwners_ok {disp : Option StoredEvent}
    (hOk : q.retireSupersededOwners replaced now = .ok (disp, retired, q')) :
    retired = q.eligible (ownersOf replaced.provenance.localOrigin) ∧ q.Retires retired q' ∧
      disp = if replaced.provenance.seen.isEmpty then none else some (withoutOwners replaced retired) := by
  simp only [retireSupersededOwners, run_ok] at hOk
  obtain ⟨_, hR, rfl, rfl, rfl⟩ := hOk
  exact ⟨rfl, retireOwners_ok hR, rfl⟩

end Queue

def AcceptOutcome.replaced : AcceptOutcome → Option StoredEvent
  | .superseded _ _ _ replaced _ => some replaced
  | _ => none

namespace Store

variable {s s' : Store}

theorem stakeClaims_ok {hd : List StoredEvent}
    (hOk : s.stakeClaims i deleting = .ok (hd, s')) : s' = { s with queue := s.queue.staked i deleting } := by
  simp only [stakeClaims, processKind5DeletionsProvisional, run_ok] at hOk
  obtain ⟨⟨_, _, _⟩, ⟨-, -, -, -, -, rfl, rfl⟩, -, rfl⟩ := hOk
  rfl

def joinedOrigin (existing : StoredEvent) (intentId : IntentId) : LocalOrigin :=
  ⟨(ownersOf existing.provenance.localOrigin).insert intentId,
    (existing.provenance.localOrigin.map LocalOrigin.sigState).getD .signed⟩

def joinedRow (existing : StoredEvent) (intentId : IntentId) : StoredEvent :=
  { existing with provenance := { existing.provenance with localOrigin := some (joinedOrigin existing intentId) } }

def joinedQueue (q : Queue) (accept : AcceptWrite) (existing : StoredEvent) (intentId : IntentId) (receiptId : Nat) : Queue :=
  if isSigned existing.provenance.localOrigin then
    journal q accept intentId receiptId existing.event .signed .signed none
  else journal (if accept.frozen.isDeletion then q.staked intentId accept.frozen else q) accept intentId receiptId
    accept.frozen accept.sigState .accepted none

theorem acceptDuplicate_ok (hOk : s.acceptDuplicate a loc old = .ok (o, s')) : ∃ r, o =
        .duplicate s.queue.nextIntentId s.queue.nextReceiptId r ∧
      ∃ m, m = join { s with queue := s.queue.allocated } loc old (joinedOrigin old s.queue.nextIntentId) ∧
        s' = { m with queue := joinedQueue m.queue a old s.queue.nextIntentId s.queue.nextReceiptId } := by
  simp only [acceptDuplicate, bind_ok] at hOk
  obtain ⟨⟨i, q⟩, hI, ⟨rc, q'⟩, hR, hOk⟩ := hOk
  obtain ⟨rfl, rfl, rfl⟩ := Queue.alloc_cases hI hR
  split at hOk
  · rename_i hs
    cases hOk
    exact ⟨_, rfl, _, rfl, by simp only [joinedQueue, hs, ↓reduceIte]; rfl⟩
  rename_i hU
  split at hOk
  · rename_i hDeletion
    simp only [run_ok] at hOk
    obtain ⟨⟨hd, _⟩, hS, rfl, rfl⟩ := hOk
    obtain rfl := stakeClaims_ok hS
    exact ⟨_, rfl, _, rfl, by simp only [joinedQueue, hU, hDeletion, ↓reduceIte]; rfl⟩
  · rename_i hRegular
    simp only [run_ok] at hOk
    obtain ⟨_, rfl, rfl, rfl⟩ := hOk
    exact ⟨_, rfl, _, rfl, by simp only [joinedQueue, hU, hRegular]; rfl⟩

def draftProvenance (intentId : IntentId) : Provenance := ⟨∅, some ⟨(∅ : ExtTreeSet IntentId).insert intentId, .pending⟩⟩

def fileDraft (q : Queue) (s : Store) (accept : AcceptWrite) (displaced : Option StoredEvent) : Queue :=
  journal q accept s.queue.nextIntentId s.queue.nextReceiptId accept.frozen accept.sigState .accepted displaced

variable [ShardHash]

inductive Accepts (s : Store) (accept : AcceptWrite) : AcceptOutcome → Store → Prop where
  | joinedRow {key : EventKey} {st row : StoredEvent} (hAt : s.events.Holds accept.frozen.id key st) :
      Accepts s accept (.duplicate s.queue.nextIntentId s.queue.nextReceiptId row)
        { s with
          events := s.events.replaceLocal key (some (joinedOrigin st s.queue.nextIntentId))
          queue := joinedQueue s.queue.allocated accept st s.queue.nextIntentId s.queue.nextReceiptId }
  | joinedStash {key : IntentId} {st row : StoredEvent} (hNew : s.events.rowOf accept.frozen.id = none)
      (hAt : s.queue.displaced[key]? = some st) (hId : st.event.id = accept.frozen.id) :
      Accepts s accept (.duplicate s.queue.nextIntentId s.queue.nextReceiptId row)
        { s with
          queue := joinedQueue
            { s.queue.allocated with displaced := s.queue.displaced.insert key (joinedRow st s.queue.nextIntentId) }
            accept st s.queue.nextIntentId s.queue.nextReceiptId }
  | refused (hNew : s.events.rowOf accept.frozen.id = none) (hRefuses : s.tombstones.refuses accept.frozen = true) :
      Accepts s accept (.refused .tombstoned) s
  | stale {events : EventTables} (hNew : s.events.rowOf accept.frozen.id = none)
      (hUnstashed : ∀ (key : IntentId) st, s.queue.displaced[key]? = some st → st.event.id ≠ accept.frozen.id)
      (hAllowed : s.tombstones.refuses accept.frozen = false)
      (hPlaces : s.events.Places accept.frozen (draftProvenance s.queue.nextIntentId) .stale events) :
      Accepts s accept (.stale s.queue.nextIntentId s.queue.nextReceiptId)
        { s with events, queue := fileDraft s.queue.allocated s accept none }
  | stored {outcome : AcceptOutcome} {events : EventTables} (hNew : s.events.rowOf accept.frozen.id = none)
      (hUnstashed : ∀ (key : IntentId) st, s.queue.displaced[key]? = some st → st.event.id ≠ accept.frozen.id)
      (hAllowed : s.tombstones.refuses accept.frozen = false)
      (hPlaces : s.events.Places accept.frozen (draftProvenance s.queue.nextIntentId) (.placed none) events)
      (hOutcome : outcome.replaced = none) :
      Accepts s accept outcome
        { s with
          events
          queue := fileDraft
            (if accept.frozen.isDeletion then s.queue.allocated.staked s.queue.nextIntentId accept.frozen
              else s.queue.allocated) s accept none }
  | superseded {events : EventTables} {replaced row : StoredEvent} {displaced : Option StoredEvent}
      {retired : List RetiredIntent} {q : Queue} (hNew : s.events.rowOf accept.frozen.id = none)
      (hUnstashed : ∀ (key : IntentId) st, s.queue.displaced[key]? = some st → st.event.id ≠ accept.frozen.id)
      (hAllowed : s.tombstones.refuses accept.frozen = false)
      (hPlaces : s.events.Places accept.frozen (draftProvenance s.queue.nextIntentId) (.placed (some replaced)) events)
      (hRetired : retired = s.queue.allocated.eligible (ownersOf replaced.provenance.localOrigin))
      (hRetires : s.queue.allocated.Retires retired q)
      (hDisplaced : displaced = if replaced.provenance.seen.isEmpty then none else some (Queue.withoutOwners replaced retired)) :
      Accepts s accept (.superseded s.queue.nextIntentId s.queue.nextReceiptId row replaced retired)
        { s with events, queue := fileDraft q s accept displaced }

theorem acceptNew_ok (h : s.events.Ok) (hNew : s.events.rowOf a.frozen.id = none)
    (hUnstashed : ∀ (k : IntentId) st, s.queue.displaced[k]? = some st → st.event.id ≠ a.frozen.id)
    (hAllowed : s.tombstones.refuses a.frozen = false)
    (hOk : s.acceptNew a now = .ok (o, s')) : s.Accepts a o s' := by
  simp only [acceptNew, bind_ok] at hOk
  obtain ⟨⟨i, q⟩, hI, ⟨rc, q'⟩, hr, ⟨pl, ev⟩, hP, hOk⟩ := hOk
  obtain ⟨rfl, rfl, rfl⟩ := Queue.alloc_cases hI hr
  have hPlaces := EventTables.place_ok h hNew hP
  cases pl with
  | stale =>
    cases hOk
    exact .stale hNew hUnstashed hAllowed hPlaces
  | placed rp =>
    cases rp with
    | none =>
      have hS : o.replaced = none → s.Accepts a o _ := .stored hNew hUnstashed hAllowed hPlaces
      dsimp only at hOk
      split at hOk
      · rename_i hDeletion
        simp only [run_ok] at hOk
        obtain ⟨⟨hd, _⟩, hs, rfl, rfl⟩ := hOk
        obtain rfl := stakeClaims_ok hs
        rw [if_pos hDeletion] at hS
        exact hS rfl
      · rename_i hRegular
        cases hOk
        rw [if_neg hRegular] at hS
        exact hS rfl
    | some rp =>
      simp only [run_ok] at hOk
      obtain ⟨⟨ds, retired, q⟩, hR, rfl, rfl⟩ := hOk
      obtain ⟨hRetired, hRetires, hDisplaced⟩ := Queue.retireSupersededOwners_ok hR
      exact .superseded hNew hUnstashed hAllowed hPlaces hRetired hRetires hDisplaced

omit [ShardHash] in
theorem findAnyDisplaced_some {q : Queue} {id : EventId}
    (hF : q.findAnyDisplaced id = some fd) : q.displaced[fd.1]? = some fd.2 ∧ fd.2.event.id = id := by
  have hM := List.mem_of_find?_eq_some hF
  have hT := find?_some hF
  exact ⟨mem_toList.mp hM, by simpa using hT⟩

theorem acceptWithTables_ok (h : s.events.Ok)
    (hOk : s.acceptWithTables a now = .ok (o, s')) : s.Accepts a o s' := by
  simp only [acceptWithTables, findDuplicate, bind_ok] at hOk
  obtain ⟨dp, ⟨fd, hL, hD⟩, hOk⟩ := hOk
  rcases h.loadById_cases hL with ⟨rfl, hNew⟩ | ⟨k, st, rfl, hAt⟩
  · cases hD
    cases hS : s.queue.findAnyDisplaced a.frozen.id with
    | some e =>
      rw [hS] at hOk
      obtain ⟨hDisplaced, hId⟩ := findAnyDisplaced_some hS
      obtain ⟨r, rfl, _, rfl, rfl⟩ := acceptDuplicate_ok hOk
      exact .joinedStash hNew hDisplaced hId
    | none =>
      rw [hS] at hOk
      have hUnstashed : ∀ (k : IntentId) st, s.queue.displaced[k]? = some st →
          st.event.id ≠ a.frozen.id := fun k st hAt hId => by
        have hN := List.find?_eq_none.mp hS (k, st) (mem_toList.mpr hAt)
        simp [hId] at hN
      simp only [Option.map_none] at hOk
      split at hOk
      · rename_i hRefuses
        cases hOk
        exact .refused hNew hRefuses
      · rename_i hAllowed
        exact acceptNew_ok h hNew hUnstashed (by simpa using hAllowed) hOk
  · cases hD
    obtain ⟨r, rfl, _, rfl, rfl⟩ := acceptDuplicate_ok hOk
    exact .joinedRow hAt

end Store

end NmpStore
